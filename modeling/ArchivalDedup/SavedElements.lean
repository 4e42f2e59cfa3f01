import ArchivalDedup.CutFiles
import ArchivalDedup.ElementDecoding

/-!
# Elements that an unmount wrote

A decoder that trusts its element is used safely on the files of the store itself:
whatever `index_destroy` wrote, and however much of it is left, `index_init` hands
its decoders elements as the encoders write them. On those the decoders over memory
return what the decoders of the mount return.
-/

set_option autoImplicit false

namespace ArchivalDedup.SavedElements
open ArchivalDedup.FiniteTable ArchivalDedup.LittleEndian ArchivalDedup.MetaIndex
open ArchivalDedup.Persistence hiding readElemBuffered writeElemBuffered decodeSizeElem
open ArchivalDedup.Remount hiding decodeHash decodeMasterInfo decodeBlockIndice decodeFreeBlock
  decodeSize decodeStr
open ArchivalDedup.CutFiles ArchivalDedup.BufferedFile ArchivalDedup.BufferedReader
open ArchivalDedup.ElementDecoding

/-! ## Both models of the decoders -/

/-- What the loads keep of an element. -/
inductive Value where
  | hash (h : Hash)
  | masterInfo (m : MasterInfo)
  | blockIndice (b : BlockIndice)
  | path (p : Path)
  | number (n : ℕ)

def meaning : Decoder → Bytes → Option Value
  | .hash, data => (Remount.decodeHash data).map .hash
  | .masterInfo, data => (Remount.decodeMasterInfo data).map .masterInfo
  | .blockIndice, data => (Remount.decodeBlockIndice data).map .blockIndice
  | .str, data => (Remount.decodeStr data).map .path
  | .size, data => (Remount.decodeSize data).map .number
  | .freeBlock, data => (Remount.decodeFreeBlock data).map .number
  | .sizeElem, data => (Persistence.decodeSizeElem data).map .number

def valueOf : Decoder → Elem → Option Value
  | .hash, .plain bytes => meaning .hash bytes
  | .masterInfo, .plain bytes => meaning .masterInfo bytes
  | .size, .plain bytes => some (.number (leNat bytes))
  | .freeBlock, .plain bytes => some (.number (leNat bytes))
  | .sizeElem, .plain bytes => some (.number (leNat bytes))
  | .str, .str path => (cString path).map .path
  | .blockIndice, .blockIndice path offset =>
    (cString path).map (fun p => .blockIndice ⟨p,offset⟩)
  | _, _ => none

theorem fixed_decoded (junk : ℤ → UInt8) {d : Decoder} {data : Bytes} {n : ℕ}
    (hrun : d.run = decodeFixed n) (hlen : data.length = n) (hn : n < 2^31) :
    decodeCall junk d data = ⟨[(0,n)],some (.plain data)⟩ := by
  have hcopy := copyOf_inside junk data 0 n (by omega)
  rw [Int.natCast_zero,List.drop_zero,List.take_of_length_le (by omega)] at hcopy
  have hsize : ¬ toInt data.length ≠ n := by rw [hlen,toInt_small hn,not_not]
  rw [decodeCall,hrun,decodeFixed,if_neg hsize,hcopy]

/-- On an element that an encoder writes, both models of its decoder agree. -/
theorem decoders_agree (junk : ℤ → UInt8) {d : Decoder} {data : Bytes} (h : Valid d data) :
    (decodeCall junk d data).result.bind (valueOf d) = meaning d data := by
  cases d with
  | hash =>
    rw [fixed_decoded junk rfl h (by decide)]
    rfl
  | masterInfo =>
    rw [fixed_decoded junk rfl h (by decide)]
    rfl
  | blockIndice =>
    obtain ⟨hlen,chars,offset,_,hoff,hdata⟩ := h
    have hdrop : data.drop 4 = (chars++[0])++offset := by
      rw [hdata,List.drop_left' (leBytes_length 4 _)]
    have hpath : leNat (data.take 4) = (chars++[0]).length := by
      have hsize := (blockIndice_fields junk hlen hoff hdata).1
      rw [hdata,List.take_left' (leBytes_length 4 _),leNat_leBytes_of_lt (by omega)]
      simp
    rw [blockIndice_decoded junk hlen hoff hdata]
    simp only [Option.bind_some,valueOf,meaning,Remount.decodeBlockIndice]
    rw [hpath,←List.drop_drop,hdrop,List.take_left,List.drop_left,
      List.take_of_length_le (Nat.le_of_eq hoff),Option.map_map]
    rfl
  | str =>
    have hcopy := copyOf_inside junk data 0 data.length (by omega)
    rw [Int.natCast_zero,List.drop_zero,List.take_length] at hcopy
    change (decodeStr (around junk data) (toInt data.length)).result.bind _ = _
    rw [decodeStr,toInt_small h.1,toSizeT_nat (by have := h.1; omega),hcopy]
    rfl
  | size =>
    have hlen : data.length = 8 := h
    have hcopy := copyOf_inside junk data 0 8 (by omega)
    rw [Int.natCast_zero,List.drop_zero] at hcopy
    change (decodeSize (around junk data) (toInt data.length)).result.bind _ = _
    rw [decodeSize,hcopy]
    rfl
  | freeBlock =>
    have hlen : data.length = 8 := h
    rw [fixed_decoded junk rfl h (by decide)]
    simp only [Option.bind_some,valueOf,meaning,Remount.decodeFreeBlock]
    rw [if_pos hlen]
    rfl
  | sizeElem =>
    have hlen : data.length = 8 := h
    rw [fixed_decoded junk rfl h (by decide)]
    simp only [Option.bind_some,valueOf,meaning,Persistence.decodeSizeElem]
    rw [if_pos hlen]
    rfl

/-! ## What is left of a file -/

def framed (es : List (Decoder × Bytes)) : Bytes := es.flatMap (fun e => frame e.2)

def Front (rest : Bytes) (es : List (Decoder × Bytes)) : Prop := ∃ k, rest = (framed es).take k

theorem front_nil (es : List (Decoder × Bytes)) : Front [] es := ⟨0,rfl⟩

theorem valid_short {d : Decoder} {data : Bytes} (h : Valid d data) : data.length < 2^64 := by
  cases d with
  | hash => exact Nat.lt_of_le_of_lt (Nat.le_of_eq h) (by decide)
  | masterInfo => exact Nat.lt_of_le_of_lt (Nat.le_of_eq h) (by decide)
  | blockIndice => exact h.1.trans (by decide)
  | str => exact h.1.trans (by decide)
  | size => exact Nat.lt_of_le_of_lt (Nat.le_of_eq h) (by decide)
  | freeBlock => exact Nat.lt_of_le_of_lt (Nat.le_of_eq h) (by decide)
  | sizeElem => exact Nat.lt_of_le_of_lt (Nat.le_of_eq h) (by decide)

section Reads

variable (junk : ℤ → UInt8) {file : Bytes} (grant : ℕ → ℕ) {s : Input} {rest : Bytes}

theorem elem_short (h : Holding file s rest) (hs : rest.length < 8) :
    (BufferedFile.readElemBuffered file grant some s).2 = none ∧
      Holding file (BufferedFile.readElemBuffered file grant some s).1 [] := by
  obtain ⟨hnone,hold⟩ := bufferedRead_short grant h hs
  unfold BufferedFile.readElemBuffered
  generalize bufferedRead file grant s 8 = t at hnone hold
  obtain ⟨t,o⟩ := t
  cases hnone
  exact ⟨rfl,hold⟩

theorem elem_front {d : Decoder} {data : Bytes} {es : List (Decoder × Bytes)}
    (hd : data.length < 2^64) (h : Holding file s rest) (hf : Front rest ((d,data)::es)) :
    ((BufferedFile.readElemBuffered file grant some s).2 = none ∧
      Holding file (BufferedFile.readElemBuffered file grant some s).1 []) ∨
    ((BufferedFile.readElemBuffered file grant some s).2 = some data ∧
      ∃ rest', Holding file (BufferedFile.readElemBuffered file grant some s).1 rest' ∧
        Front rest' es) := by
  obtain ⟨k,rfl⟩ := hf
  have hframed : framed ((d,data)::es) = leBytes 8 data.length++(data++framed es) := by
    rw [framed,List.flatMap_cons,frame,List.append_assoc]
    rfl
  rw [hframed] at h
  by_cases hk : k < 8
  · exact Or.inl (elem_short grant h (by rw [List.length_take]; omega))
  have htake : (leBytes 8 data.length++(data++framed es)).take k =
      leBytes 8 data.length++(data++framed es).take (k-8) := by
    rw [List.take_append,leBytes_length,List.take_of_length_le (by rw [leBytes_length]; omega)]
  rw [htake] at h
  obtain ⟨hsize,hold⟩ := bufferedRead_full grant h (show 8 ≤ _ by simp)
  rw [List.take_left' (leBytes_length 8 _)] at hsize
  rw [List.drop_left' (leBytes_length 8 _)] at hold
  unfold BufferedFile.readElemBuffered
  generalize bufferedRead file grant s 8 = t at hsize hold
  obtain ⟨t,o⟩ := t
  cases hsize
  dsimp only at hold ⊢
  rw [leNat_leBytes_of_lt hd]
  by_cases hlen : k-8 < data.length
  · left
    obtain ⟨hnone,hend⟩ := bufferedRead_short grant hold (show _ < data.length by
      rw [List.length_take]; omega)
    generalize bufferedRead file grant t data.length = u at hnone hend
    obtain ⟨u,o⟩ := u
    cases hnone
    exact ⟨rfl,hend⟩
  · right
    have hcut : (data++framed es).take (k-8) = data++(framed es).take (k-8-data.length) := by
      rw [List.take_append,List.take_of_length_le (by omega)]
    rw [hcut] at hold
    obtain ⟨hsome,hnext⟩ := bufferedRead_full grant hold (show data.length ≤ _ by simp)
    rw [List.take_left] at hsome
    rw [List.drop_left] at hnext
    generalize bufferedRead file grant t data.length = u at hsome hnext
    obtain ⟨u,o⟩ := u
    cases hsome
    exact ⟨rfl,_,hnext,k-8-data.length,rfl⟩

theorem turnCalls_end (ds : List Decoder) (h : Holding file s []) :
    (turnCalls junk file grant ds s).2.1 = [] ∧
      Holding file (turnCalls junk file grant ds s).1 [] := by
  induction ds generalizing s with
  | nil => exact ⟨rfl,h⟩
  | cons d ds ih =>
    obtain ⟨hnone,hold⟩ := elem_short grant h (by decide)
    unfold turnCalls
    generalize BufferedFile.readElemBuffered file grant some s = t at hnone hold
    obtain ⟨t,o⟩ := t
    cases hnone
    exact ih hold

theorem turnCalls_valid (turn es : List (Decoder × Bytes)) (hv : ∀ e ∈ turn, Valid e.1 e.2)
    (h : Holding file s rest) (hf : Front rest (turn++es)) :
    (∀ call ∈ (turnCalls junk file grant (turn.map Prod.fst) s).2.1, Valid call.1 call.2) ∧
    ((turnCalls junk file grant (turn.map Prod.fst) s).2.2 = true →
      ∃ rest', Holding file (turnCalls junk file grant (turn.map Prod.fst) s).1 rest' ∧
        Front rest' es) := by
  induction turn generalizing s rest with
  | nil => exact ⟨fun call hc => absurd hc (List.not_mem_nil),fun _ => ⟨rest,h,hf⟩⟩
  | cons e turn ih =>
    obtain ⟨d,data⟩ := e
    have hdata : Valid d data := hv _ (List.mem_cons_self ..)
    rw [List.map_cons,turnCalls]
    rcases elem_front grant (valid_short hdata) h hf with ⟨hnone,hold⟩ | ⟨hsome,rest',hold,hfront⟩
    · generalize BufferedFile.readElemBuffered file grant some s = t at hnone hold
      obtain ⟨t,o⟩ := t
      cases hnone
      have hend := (turnCalls_end junk grant (turn.map Prod.fst) hold).1
      dsimp only
      rw [hend]
      exact ⟨fun call hc => absurd hc (List.not_mem_nil),fun hf => absurd hf (by decide)⟩
    · generalize BufferedFile.readElemBuffered file grant some s = t at hsome hold
      obtain ⟨t,o⟩ := t
      cases hsome
      obtain ⟨hcalls,hnext⟩ := ih (fun e he => hv e (List.mem_cons_of_mem _ he)) hold hfront
      refine ⟨?_,?_⟩
      · intro call hc
        rcases List.mem_cons.mp hc with rfl | hc
        · exact hdata
        · exact hcalls call hc
      · intro hflag
        exact hnext (Bool.and_eq_true_iff.mp hflag).2

theorem loopCalls_valid (ds : List Decoder) (turns : List (List (Decoder × Bytes)))
    (hd : ∀ turn ∈ turns, turn.map Prod.fst = ds)
    (hv : ∀ turn ∈ turns, ∀ e ∈ turn, Valid e.1 e.2) (n : ℕ) (h : Holding file s rest)
    (hf : Front rest turns.flatten) :
    ∀ call ∈ loopCalls junk file grant ds n s, Valid call.1 call.2 := by
  induction n generalizing s rest turns with
  | zero => exact fun call hc => absurd hc (List.not_mem_nil)
  | succ n ih =>
    intro call hc
    rw [loopCalls] at hc
    cases turns with
    | nil =>
      obtain ⟨k,rfl⟩ := hf
      obtain ⟨hend,hold⟩ := turnCalls_end junk grant ds (by simpa [framed] using h)
      simp only [hend,List.nil_append] at hc
      split_ifs at hc
      · exact ih [] hd hv hold (front_nil _) call hc
      · exact absurd hc (List.not_mem_nil)
    | cons turn turns =>
      have hturn := turnCalls_valid junk grant turn turns.flatten (hv turn (List.mem_cons_self ..))
        h hf
      rw [hd turn (List.mem_cons_self ..)] at hturn
      obtain ⟨hcalls,hnext⟩ := hturn
      rcases List.mem_append.mp hc with hc | hc
      · exact hcalls call hc
      · split_ifs at hc with hflag
        · obtain ⟨rest',hold,hfront⟩ := hnext hflag
          exact ih turns (fun t ht => hd t (List.mem_cons_of_mem _ ht))
            (fun t ht => hv t (List.mem_cons_of_mem _ ht)) hold hfront call hc
        · exact absurd hc (List.not_mem_nil)

theorem fileCalls_valid {α : Type} (ds : List Decoder) (xs : List α)
    (turnOf : α → List (Decoder × Bytes)) (hd : ∀ x ∈ xs, (turnOf x).map Prod.fst = ds)
    (hv : ∀ x ∈ xs, ∀ e ∈ turnOf x, Valid e.1 e.2) (n k : ℕ)
    (hfile : file = (leBytes 4 n++xs.flatMap (fun x => framed (turnOf x))).take k)
    (h : Holding file s file) :
    ∀ call ∈ fileCalls junk file grant ds s, Valid call.1 call.2 := by
  have hturns : ∀ turn ∈ xs.map turnOf, turn.map Prod.fst = ds ∧ ∀ e ∈ turn, Valid e.1 e.2 := by
    intro turn ht
    obtain ⟨x,hx,rfl⟩ := List.mem_map.mp ht
    exact ⟨hd x hx,hv x hx⟩
  have hframed : xs.flatMap (fun x => framed (turnOf x)) = framed (xs.map turnOf).flatten := by
    rw [framed,←List.flatMap_def,List.flatMap_assoc]
    rfl
  intro call hc
  unfold fileCalls at hc
  by_cases hlen : file.length < 4
  · obtain ⟨hnone,_⟩ := bufferedRead_short grant h hlen
    generalize bufferedRead file grant s 4 = t at hnone hc
    obtain ⟨t,o⟩ := t
    cases hnone
    exact absurd hc (List.not_mem_nil)
  · obtain ⟨hsome,hold⟩ := bufferedRead_full grant h (Nat.le_of_not_lt hlen)
    have hfront : Front (file.drop 4) (xs.map turnOf).flatten := by
      refine ⟨k-4,?_⟩
      rw [←hframed,hfile,List.drop_take,List.drop_left' (leBytes_length 4 _)]
    generalize bufferedRead file grant s 4 = t at hsome hold hc
    obtain ⟨t,o⟩ := t
    cases hsome
    exact loopCalls_valid junk grant ds (xs.map turnOf) (fun t ht => (hturns t ht).1)
      (fun t ht => (hturns t ht).2) _ hold hfront call hc

end Reads

/-! ## The files of an unmount -/

section Saved

variable (junk : ℤ → UInt8) (grant : ℕ → ℕ)

def elemTurn {α : Type} (d : Decoder) (encode : α → Bytes) (x : α) : List (Decoder × Bytes) :=
  [(d,encode x)]

def entryTurn {κ ν : Type} (d : Decoder) (encodeKey : κ → Bytes) (d' : Decoder)
    (encodeVal : ν → Bytes) (e : Sigma fun _ : κ => ν) : List (Decoder × Bytes) :=
  [(d,encodeKey e.1),(d',encodeVal e.2)]

theorem framed_elem {α : Type} (d : Decoder) (encode : α → Bytes) (x : α) :
    framed (elemTurn d encode x) = frame (encode x) := List.append_nil _

theorem framed_entry {κ ν : Type} (d : Decoder) (encodeKey : κ → Bytes) (d' : Decoder)
    (encodeVal : ν → Bytes) (e : Sigma fun _ : κ => ν) :
    framed (entryTurn d encodeKey d' encodeVal e) = entryCode encodeKey encodeVal e := by
  simp [framed,entryTurn,entryCode]

variable {file : Bytes} {s : Input} (h : Holding file s file)
include h

theorem listCalls_valid {α : Type} (d : Decoder) (encode : α → Bytes)
    (hv : ∀ x, Valid d (encode x)) (xs : List α) (n k : ℕ)
    (hfile : file = (saveAll (fun w a => Persistence.writeElemBuffered w (encode a)) n xs).take k) :
    ∀ call ∈ fileCalls junk file grant [d] s, Valid call.1 call.2 := by
  rw [saveAll_eq n xs (fun w x _ => stream_writeElem w (encode x))] at hfile
  refine fileCalls_valid junk grant [d] xs (elemTurn d encode) (fun _ _ => rfl) ?_ n k ?_ h
  · intro x _ e he
    rw [List.mem_singleton.mp he]
    exact hv x
  · simpa only [framed_elem] using hfile

theorem tableCalls_valid {κ ν : Type} {d d' : Decoder} {encodeKey : κ → Bytes}
    {encodeVal : ν → Bytes} (hk : ∀ x, Valid d (encodeKey x)) (hv : ∀ x, Valid d' (encodeVal x))
    {saveOne : BufferedStream.Writer UInt8 → (Sigma fun _ : κ => ν) → BufferedStream.Writer UInt8}
    (xs : List (Sigma fun _ : κ => ν))
    (hs : ∀ w, ∀ e ∈ xs, (saveOne w e).stream = w.stream++entryCode encodeKey encodeVal e) (n k : ℕ)
    (hfile : file = (saveAll saveOne n xs).take k) :
    ∀ call ∈ fileCalls junk file grant [d,d'] s, Valid call.1 call.2 := by
  rw [saveAll_eq n xs hs] at hfile
  refine fileCalls_valid junk grant [d,d'] xs (entryTurn d encodeKey d' encodeVal) (fun _ _ => rfl) ?_
    n k ?_ h
  · intro x _ e he
    rcases List.mem_pair.mp he with rfl | rfl
    · exact hk x.1
    · exact hv x.2
  · simpa only [framed_entry] using hfile

theorem indexedCalls_valid {κ : Type} {d : Decoder} {encodeKey : κ → Bytes}
    (hk : ∀ x, Valid d (encodeKey x)) {v : IndexedValues Ptr} (hv : Collected v)
    (xs : List (Sigma fun _ : κ => Ptr)) (hmem : ∀ e ∈ xs, e.2 ∈ v.values) (n k : ℕ)
    (hfile : file = (saveAll (saveIndexedEntry encodeKey v.valueToIndex) n xs).take k) :
    ∀ call ∈ fileCalls junk file grant [d,.sizeElem] s, Valid call.1 call.2 :=
  tableCalls_valid junk grant h hk
    (fun a => encoded_valid.2.2.2.2.2.2 (v.values.idxOf a)) xs
    (fun w e he => stream_saveIndexedEntry hv encodeKey w e (hmem e he)) n k hfile

end Saved

/-- A front of one of the files that an unmount writes. -/
def SavedFront (part : IndexFiles → Bytes) (file : Bytes) : Prop :=
  ∃ u c k, file = (part (indexDestroy u c)).take k

/-- Each of the five files is left from an unmount, maybe from different ones. -/
structure LeftOver (f : IndexFiles) : Prop where
  hashToMaster : SavedFront (fun g => g.pair.table1) f.pair.table1
  fileToMaster : SavedFront (fun g => g.pair.table2) f.pair.table2
  masterInfos : SavedFront (fun g => g.pair.values) f.pair.values
  fileToSizes : SavedFront IndexFiles.fileToSizes f.fileToSizes
  freeBlockList : SavedFront IndexFiles.freeBlockList f.freeBlockList

theorem leftOver_valid {f : IndexFiles} (hf : LeftOver f) (junk : ℤ → UInt8) (grant : ℕ → ℕ)
    (memory : ℕ → UInt8) :
    ∀ call ∈ indexInitCalls junk grant memory f, Valid call.1 call.2 := by
  obtain ⟨⟨u₁,c₁,k₁,h₁⟩,⟨u₂,c₂,k₂,h₂⟩,⟨u₃,c₃,k₃,h₃⟩,⟨_,_,k₄,h₄⟩,⟨_,_,k₅,h₅⟩⟩ := hf
  obtain ⟨hhash,hinfo,hblock,hstr,hsize,hfree,_⟩ := encoded_valid
  have hnew := holding_new memory bufferSize bufferSize_pos bufferSize_fits
  intro call hc
  simp only [indexInitCalls,List.mem_append] at hc
  rcases hc with (((hc | hc) | hc) | hc) | hc
  · exact listCalls_valid junk grant (hnew _) .masterInfo
      (fun a => encodeMasterInfo (u₃.pad a) (c₃.cell a)) (fun a => hinfo _ _) _ _ k₃ h₃ call hc
  · refine indexedCalls_valid junk grant (hnew _) hhash
      (collectValues_spec u₁.pair c₁.hashToMaster c₁.fileToMaster).1 _ ?_ _ k₁ h₁ call hc
    intro e he
    exact (mem_savedValues u₁ e.2).mpr (Or.inl ⟨e.1,(mem_listed _ _).mp he⟩)
  · refine indexedCalls_valid junk grant (hnew _) hblock
      (collectValues_spec u₂.pair c₂.hashToMaster c₂.fileToMaster).1 _ ?_ _ k₂ h₂ call hc
    intro e he
    exact (mem_savedValues u₂ e.2).mpr (Or.inr ⟨e.1,(mem_listed _ _).mp he⟩)
  · exact tableCalls_valid junk grant (hnew _) hstr hsize _
      (fun w e _ => stream_saveEntry encodeStr encodeSize w e) _ k₄ h₄ call hc
  · exact listCalls_valid junk grant (hnew _) .freeBlock encodeFreeBlock hfree _ _ k₅ h₅ call hc

theorem leftOver_decoded {f : IndexFiles} (hf : LeftOver f) (junk : ℤ → UInt8) (grant : ℕ → ℕ)
    (memory : ℕ → UInt8) : ∀ call ∈ indexInitCalls junk grant memory f, ∀ junk',
      Confined junk' call.1 call.2 ∧
      (decodeCall junk' call.1 call.2).result.bind (valueOf call.1) = meaning call.1 call.2 := by
  intro call hc junk'
  have hvalid := leftOver_valid hf junk grant memory call hc
  exact ⟨(confined_iff junk' call.1 call.2).mpr (Or.inl hvalid),decoders_agree junk' hvalid⟩

end ArchivalDedup.SavedElements
