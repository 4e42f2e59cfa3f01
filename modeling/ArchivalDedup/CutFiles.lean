import ArchivalDedup.EqualWrites

/-!
# Index files that are cut off

Each of the five files that `index_destroy` writes is cut at some byte. A load
brings back the entries that lie completely before the cut, and of the two tables
that share their values those whose value does so too; no entry gets another
value. The count in front of each file is an `int`: with 2^31 entries or more a
file is not loaded that far even when nothing is cut.
-/

set_option autoImplicit false

namespace ArchivalDedup.CutFiles
open ArchivalDedup.FiniteTable ArchivalDedup.BufferedStream ArchivalDedup.LittleEndian
open ArchivalDedup.MetaIndex ArchivalDedup.Persistence ArchivalDedup.Remount
open ArchivalDedup.Passthrough ArchivalDedup.ReferenceSafety ArchivalDedup.SequentialRun
open ArchivalDedup.Interleaving ArchivalDedup.EqualWrites

/-! ## One file -/

section Files

variable {α γ κ ν : Type}

theorem frame_length (b : Bytes) : (frame b).length = 8+b.length := by
  simp [frame]

theorem frame_pos (b : Bytes) : 0 < (frame b).length := by
  rw [frame_length]
  omega

theorem readElem_stops {encode : α → Bytes} {decode : Bytes → Option γ} {f : α → γ} {a : α}
    (h : Encodes encode decode f a) :
    Stops (readElemBuffered decode) (fun x => frame (encode x)) a := by
  intro r k hk hs
  dsimp only at hk hs
  rw [frame_length] at hk
  have hlen : r.stream.length = k := by
    rw [hs,List.length_take,frame_length]
    omega
  unfold readElemBuffered
  by_cases h8 : k < 8
  · rw [read_short bufferSize r 8 (by omega)]
    rfl
  · -- the length is whole, the bytes that it announces are not
    have hfront : r.stream = leBytes 8 (encode a).length++(encode a).take (k-8) := by
      rw [hs,frame,List.take_append,leBytes_length,List.take_of_length_le (by simp; omega)]
    obtain ⟨r₁,h₁,s₁⟩ := stream_read bufferSize bufferSize_pos r _ _ hfront
    rw [leBytes_length] at h₁
    have hnat : leNat (leBytes 8 (encode a).length) = (encode a).length :=
      leNat_leBytes_of_lt (Nat.lt_of_lt_of_eq h.2 (by decide))
    have hshort : r₁.read bufferSize (encode a).length = none := by
      refine read_short bufferSize r₁ _ ?_
      rw [s₁,List.length_take]
      omega
    simp only [h₁,Option.bind_some,hnat,hshort,Option.bind_none]

theorem readEntry_stops {encodeKey : κ → Bytes} {decodeKey : Bytes → Option κ}
    {encodeVal : ν → Bytes} {decodeVal : Bytes → Option γ} {f : ν → γ} {e : Sigma fun _ : κ => ν}
    (hk : Encodes encodeKey decodeKey id e.1) (hv : Encodes encodeVal decodeVal f e.2) :
    Stops (readEntry decodeKey decodeVal)
      (fun x : Sigma fun _ : κ => ν => frame (encodeKey x.1)++frame (encodeVal x.2)) e := by
  intro r k hlt hs
  rw [List.length_append] at hlt
  rw [List.take_append] at hs
  unfold readEntry
  by_cases hkey : k < (frame (encodeKey e.1)).length
  · rw [Nat.sub_eq_zero_of_le (by omega),List.take_zero,List.append_nil] at hs
    rw [readElem_stops hk r k hkey hs]
    rfl
  · rw [List.take_of_length_le (by omega)] at hs
    obtain ⟨r₁,h₁,s₁⟩ := readElem_recovers hk r _ hs
    have hval : k-(frame (encodeKey e.1)).length < (frame (encodeVal e.2)).length := by omega
    rw [h₁,Option.bind_some,readElem_stops hv r₁ _ hval s₁]
    rfl

def endOf (enc : α → Bytes) (xs : List α) (j : ℕ) : ℕ := 4+((xs.take (j+1)).flatMap enc).length

theorem endOf_le (enc : α → Bytes) (xs : List α) (j : ℕ) :
    endOf enc xs j ≤ 4+(xs.flatMap enc).length := by
  have := congrArg List.length (congrArg (List.flatMap enc) (List.take_append_drop (j+1) xs))
  rw [List.flatMap_append,List.length_append] at this
  unfold endOf
  omega

theorem before_cut (enc : α → Bytes) (xs : List α) (henc : ∀ x ∈ xs, 0 < (enc x).length) (k j : ℕ) :
    j < wholeCount enc (k-4) xs ↔ j < xs.length ∧ endOf enc xs j ≤ k := by
  rw [wholeCount_iff]
  refine and_congr_right ?_
  intro hj
  have hpos : 0 < ((xs.take (j+1)).flatMap enc).length := by
    rw [List.take_add_one,List.getElem?_eq_getElem hj,Option.toList_some,List.flatMap_append,
      List.length_append,List.flatMap_singleton]
    have := henc _ (List.getElem_mem hj)
    omega
  unfold endOf
  omega

/-- What a load brings back of a file that a save wrote and that was then cut. -/
theorem loadAll_cut {saveOne : BufferedStream.Writer UInt8 → α → BufferedStream.Writer UInt8}
    {readOne : Reader UInt8 → Option (γ × Reader UInt8)} {enc : α → Bytes} {f : α → γ}
    (xs : List α) (hs : ∀ w, ∀ x ∈ xs, (saveOne w x).stream = w.stream++enc x)
    (hx : ∀ x ∈ xs, Recovers readOne enc f x ∧ Stops readOne enc x)
    (henc : ∀ x ∈ xs, 0 < (enc x).length) (n : ℕ) (hn : n = xs.length) (k : ℕ) :
    loadAll readOne ((saveAll saveOne n xs).take k) =
      (xs.map f).take (min (restored n) (wholeCount enc (k-4) xs)) := by
  have hz : k < 4 → wholeCount enc (k-4) xs = 0 := by
    intro hk
    by_contra hne
    obtain ⟨hlt,hle⟩ := (before_cut enc xs henc k 0).mp (Nat.pos_of_ne_zero hne)
    unfold endOf at hle
    omega
  rw [saveAll_eq n xs hs]
  unfold loadAll
  by_cases hk : k < 4
  · rw [read_short bufferSize _ 4 (by
      change (((leBytes 4 n)++xs.flatMap enc).take k).length < 4
      rw [List.length_take]
      omega),hz hk,Nat.min_zero]
    rfl
  · have hfront : (Reader.create ((leBytes 4 n++xs.flatMap enc).take k)).stream =
        leBytes 4 n++(xs.flatMap enc).take (k-4) := by
      change (leBytes 4 n++xs.flatMap enc).take k = _
      rw [List.take_append,leBytes_length,List.take_of_length_le (by simp; omega)]
    obtain ⟨r,hr,ht⟩ := stream_read bufferSize bufferSize_pos _ _ _ hfront
    rw [leBytes_length] at hr
    rw [hr]
    exact readMany_cut xs hx (restored n) (k-4) (hn ▸ restored_le n) r ht

theorem restored_lt (n : ℕ) : restored n < 2^31 := by
  unfold restored iterations
  split_ifs with h
  · exact h
  · decide

end Files

/-! ## Tables -/

section Tables

variable {κ ν γ : Type} [DecidableEq κ]

theorem find_taken (l : List (Sigma fun _ : κ => γ)) (hl : (l.map Sigma.fst).Nodup) (m : ℕ) (k : κ)
    (v : γ) : find (fill ∅ (l.take m)) k = some v ↔ ∃ j < m, l[j]? = some ⟨k,v⟩ := by
  have htake : ((l.take m).map Sigma.fst).Nodup := by
    rw [List.map_take]
    exact hl.sublist (List.take_sublist ..)
  rw [find_fill _ htake,List.mem_iff_getElem?]
  refine exists_congr ?_
  intro j
  rw [List.getElem?_take]
  split_ifs with hj
  · simp [hj]
  · simp [hj]

omit [DecidableEq κ] in
theorem listed_unique (save : Listing κ ν) (t : Table κ ν) {j j' : ℕ} {k : κ} {a a' : ν}
    (hj : (save.list t)[j]? = some ⟨k,a⟩) (hj' : (save.list t)[j']? = some ⟨k,a'⟩) :
    j = j' ∧ a = a' := by
  have hkeys : ((save.list t).map Sigma.fst).Nodup :=
    ((save.perm t).map Sigma.fst).nodup_iff.mpr t.nodupKeys
  have hlt : j < ((save.list t).map Sigma.fst).length := by
    rw [List.length_map]
    exact (List.getElem?_eq_some_iff.mp hj).1
  have heq : j = j' := by
    refine (List.getElem?_inj hlt hkeys).mp ?_
    rw [List.getElem?_map,List.getElem?_map,hj,hj']
    rfl
  subst heq
  have := Option.some.inj (hj.symm.trans hj')
  cases this
  exact ⟨rfl,rfl⟩

theorem mem_listed (save : Listing κ ν) (t : Table κ ν) {k : κ} {a : ν} :
    (⟨k,a⟩ : Sigma fun _ : κ => ν) ∈ save.list t ↔ find t k = some a :=
  (save.perm t).mem_iff.trans (mem_entries_iff t k a)

def entryCode (encodeKey : κ → Bytes) (encodeVal : ν → Bytes) (e : Sigma fun _ : κ => ν) : Bytes :=
  frame (encodeKey e.1)++frame (encodeVal e.2)

omit [DecidableEq κ] in
theorem entryCode_pos (encodeKey : κ → Bytes) (encodeVal : ν → Bytes) (e : Sigma fun _ : κ => ν) :
    0 < (entryCode encodeKey encodeVal e).length := by
  have := frame_pos (encodeKey e.1)
  rw [entryCode,List.length_append]
  omega

/-- The loaded table of a cut file: the entries before the cut, as far as the
count goes. -/
theorem ghashLoad_cut {saveOne : BufferedStream.Writer UInt8 → (Sigma fun _ : κ => ν) →
      BufferedStream.Writer UInt8} {encodeKey : κ → Bytes} {decodeKey : Bytes → Option κ}
    {encodeVal : ν → Bytes} {decodeVal : Bytes → Option γ} {f : ν → γ}
    (order : Listing κ ν) (t : Table κ ν)
    (hs : ∀ w, ∀ e ∈ order.list t, (saveOne w e).stream = w.stream++entryCode encodeKey encodeVal e)
    (he : ∀ e ∈ order.list t, Encodes encodeKey decodeKey id e.1 ∧ Encodes encodeVal decodeVal f e.2)
    (cut : ℕ) (k : κ) (v : γ) :
    find (ghashLoad decodeKey decodeVal
      ((saveAll saveOne t.entries.length (order.list t)).take cut)) k = some v ↔
      ∃ j a, j < restored t.entries.length ∧ (order.list t)[j]? = some ⟨k,a⟩ ∧
        endOf (entryCode encodeKey encodeVal) (order.list t) j ≤ cut ∧ f a = v := by
  have hp := order.perm t
  have hload := loadAll_cut (order.list t) hs
    (fun e hm => ⟨readEntry_recovers (he e hm).1 (he e hm).2,readEntry_stops (he e hm).1 (he e hm).2⟩)
    (fun e _ => entryCode_pos encodeKey encodeVal e) t.entries.length hp.length_eq.symm cut
  have hkeys : (((order.list t).map (withValue f)).map Sigma.fst).Nodup := by
    rw [List.map_map]
    exact (hp.map Sigma.fst).nodup_iff.mpr t.nodupKeys
  have hcut := before_cut (entryCode encodeKey encodeVal) (order.list t)
    (fun e _ => entryCode_pos encodeKey encodeVal e) cut
  unfold ghashLoad
  rw [hload,find_taken _ hkeys]
  constructor
  · rintro ⟨j,hj,hget⟩
    rw [List.getElem?_map,Option.map_eq_some_iff] at hget
    obtain ⟨⟨k',a⟩,hget,heq⟩ := hget
    cases heq
    have hbefore := (hcut j).mp (Nat.lt_of_lt_of_le hj (Nat.min_le_right ..))
    exact ⟨j,a,Nat.lt_of_lt_of_le hj (Nat.min_le_left ..),hget,hbefore.2,rfl⟩
  · rintro ⟨j,a,hj,hget,hend,rfl⟩
    have hlen := (List.getElem?_eq_some_iff.mp hget).1
    refine ⟨j,Nat.lt_min.mpr ⟨hj,?_⟩,?_⟩
    · exact (hcut j).mpr ⟨hlen,hend⟩
    · rw [List.getElem?_map,hget]
      rfl

theorem encodes_position (n : ℕ) : Encodes encodeSizeElem decodeSizeElem (· % 2^64) n := by
  constructor
  · unfold decodeSizeElem encodeSizeElem
    rw [if_pos (leBytes_length 8 n),leNat_leBytes]
    rfl
  · rw [encodeSizeElem,leBytes_length]
    decide

theorem indexed_cut [DecidableEq ν] {s : IndexedValues ν} (hs : Collected s)
    {encodeKey : κ → Bytes} {decodeKey : Bytes → Option κ} (order : Listing κ ℕ)
    (save : Listing κ ν) (t : Table κ ν)
    (hk : ∀ k x, find t k = some x → Encodes encodeKey decodeKey id k ∧ x ∈ s.values)
    (values : List γ) (cut : ℕ) (k : κ) (v : γ) :
    find (loadIndexed order decodeKey values ((saveAll (saveIndexedEntry encodeKey s.valueToIndex)
      t.entries.length (save.list t)).take cut)) k = some v ↔
      ∃ j a, j < restored t.entries.length ∧ (save.list t)[j]? = some ⟨k,a⟩ ∧
        endOf (entryCode encodeKey (fun a => encodeSizeElem (s.values.idxOf a))) (save.list t) j ≤ cut ∧
        values[s.values.idxOf a % 2^64]? = some v := by
  have hmem : ∀ e ∈ save.list t, Encodes encodeKey decodeKey id e.1 ∧ e.2 ∈ s.values :=
    fun e he => hk e.1 e.2 ((mem_entries_iff t e.1 e.2).mp ((save.perm t).mem_iff.mp he))
  have hcodes : ∀ e ∈ save.list t, Encodes encodeKey decodeKey id e.1 ∧
      Encodes (fun a => encodeSizeElem (s.values.idxOf a)) decodeSizeElem
        (fun a => s.values.idxOf a % 2^64) e.2 :=
    fun e he => ⟨(hmem e he).1,encodes_position (s.values.idxOf e.2)⟩
  have hstream : ∀ w, ∀ e ∈ save.list t,
      (saveIndexedEntry encodeKey s.valueToIndex w e).stream =
        w.stream++entryCode encodeKey (fun a => encodeSizeElem (s.values.idxOf a)) e :=
    fun w e he => stream_saveIndexedEntry hs encodeKey w e (hmem e he).2
  have hload := ghashLoad_cut save t hstream hcodes cut k
  rw [find_loadIndexed,Option.bind_eq_some_iff]
  constructor
  · rintro ⟨i,hi,hv⟩
    obtain ⟨j,a,hj,hget,hend,rfl⟩ := (hload i).mp hi
    exact ⟨j,a,hj,hget,hend,hv⟩
  · rintro ⟨j,a,hj,hget,hend,hv⟩
    exact ⟨_,(hload _).mpr ⟨j,a,hj,hget,hend,rfl⟩,hv⟩

end Tables

/-! ## The index of cut files -/

/-- Where each file is cut; behind its end nothing is. -/
structure Cuts where
  hashToMaster : ℕ
  fileToMaster : ℕ
  values : ℕ
  fileToSizes : ℕ
  freeBlockList : ℕ

def cutFiles (k : Cuts) (f : IndexFiles) : IndexFiles where
  pair := ⟨f.pair.table1.take k.hashToMaster,f.pair.table2.take k.fileToMaster,
    f.pair.values.take k.values⟩
  fileToSizes := f.fileToSizes.take k.fileToSizes
  freeBlockList := f.freeBlockList.take k.freeBlockList

/-- The element stands in the file and lies completely before the cut. -/
def BeforeCut {α : Type} (enc : α → Bytes) (xs : List α) (cut : ℕ) (x : α) : Prop :=
  ∃ j, xs[j]? = some x ∧ endOf enc xs j ≤ cut

theorem beforeCut_uncut {α : Type} {enc : α → Bytes} {xs : List α} {x : α} (hx : x ∈ xs) :
    BeforeCut enc xs (4+(xs.flatMap enc).length) x := by
  obtain ⟨j,hj⟩ := List.mem_iff_getElem?.mp hx
  exact ⟨j,hj,endOf_le enc xs j⟩

section Loaded

variable (u : Unmounting) (i : Mounting) {c : Context}

def valueCode (c : Context) (a : Ptr) : Bytes := frame (encodeMasterInfo (u.pad a) (c.cell a))

def indexedCode {κ : Type} (encodeKey : κ → Bytes) (c : Context) :
    (Sigma fun _ : κ => Ptr) → Bytes :=
  entryCode encodeKey (fun a => encodeSizeElem ((savedValues u c).idxOf a))

def cutPtrs (c : Context) (cut : ℕ) : List Ptr × Heap :=
  mallocAll i.alloc (((savedValues u c).map c.cell).take
    (min (restored (savedValues u c).length) (wholeCount (valueCode u c) (cut-4) (savedValues u c))))
    emptyHeap

theorem cutPtrs_loaded (h : InRange c) (k : Cuts) :
    mallocAll i.alloc (loadValuesArray decodeMasterInfo
      (cutFiles k (indexDestroy u c)).pair.values) emptyHeap = cutPtrs u i c k.values := by
  have henc : ∀ a ∈ savedValues u c,
      Encodes (fun a => encodeMasterInfo (u.pad a) (c.cell a)) decodeMasterInfo c.cell a := by
    intro a ha
    have := h.infos a ((mem_savedValues u a).mp ha)
    exact encodes_masterInfo u.pad c.cell a this.1 this.2
  have hload := loadAll_cut (savedValues u c)
    (fun w a _ => stream_writeElem w (encodeMasterInfo (u.pad a) (c.cell a)))
    (fun a ha => ⟨readElem_recovers (henc a ha),readElem_stops (henc a ha)⟩)
    (fun a _ => frame_pos _) (savedValues u c).length rfl k.values
  unfold cutPtrs
  exact congrArg (fun l => mallocAll i.alloc l emptyHeap) hload

theorem cutPtrs_isSome (cut j : ℕ) : ((cutPtrs u i c cut).1[j]?).isSome ↔
    j < restored (savedValues u c).length ∧ j < (savedValues u c).length ∧
      endOf (valueCode u c) (savedValues u c) j ≤ cut := by
  have hlen := (mallocAll_spec i.alloc_fresh (((savedValues u c).map c.cell).take
    (min (restored (savedValues u c).length)
      (wholeCount (valueCode u c) (cut-4) (savedValues u c)))) emptyHeap).1
  have hbefore := before_cut (valueCode u c) (savedValues u c)
    (fun a _ => frame_pos _) cut j
  rw [List.length_take,List.length_map] at hlen
  rw [isSome_getElem?,cutPtrs,hlen,Nat.lt_min,Nat.lt_min,hbefore]
  constructor
  · rintro ⟨⟨hr,hb⟩,_⟩
    exact ⟨hr,hb⟩
  · rintro ⟨hr,hb⟩
    exact ⟨⟨hr,hb⟩,hb.1⟩

theorem cutPtrs_cell {cut : ℕ} {a x : Ptr} (ha : a ∈ savedValues u c)
    (hx : (cutPtrs u i c cut).1[(savedValues u c).idxOf a]? = some x) :
    x ∈ (cutPtrs u i c cut).2.live ∧ (cutPtrs u i c cut).2.cell x = c.cell a := by
  unfold cutPtrs at hx ⊢
  obtain ⟨_,_,_,hlive,_,hcell⟩ := mallocAll_spec i.alloc_fresh (((savedValues u c).map c.cell).take
    (min (restored (savedValues u c).length)
      (wholeCount (valueCode u c) (cut-4) (savedValues u c)))) emptyHeap
  have hmem := List.mem_of_getElem? hx
  refine ⟨(hlive x).mpr (Or.inr hmem),?_⟩
  have hget := hcell _ x hx
  rw [List.getElem?_take] at hget
  split_ifs at hget
  rw [List.getElem?_map,List.getElem?_idxOf ha] at hget
  exact (Option.some.inj hget).symm

section Pair

variable {κ : Type} [DecidableEq κ]

def cutTable (encodeKey : κ → Bytes) (decodeKey : Bytes → Option κ) (order : Listing κ ℕ)
    (save : Listing κ Ptr) (t : Table κ Ptr) (c : Context) (cut cutValues : ℕ) : Table κ Ptr :=
  loadIndexed order decodeKey (cutPtrs u i c cutValues).1
    ((saveAll (saveIndexedEntry encodeKey
      (collectValues u.pair c.hashToMaster c.fileToMaster).valueToIndex)
      t.entries.length (save.list t)).take cut)

/-- The loaded table has an entry for exactly the keys that lie before the cut of
the table's file with an object that lies before the cut of the values. -/
def ExactKeys (encodeKey : κ → Bytes) (save : Listing κ Ptr) (t : Table κ Ptr) (c : Context)
    (cut cutValues : ℕ) (loaded : Table κ Ptr) : Prop :=
  ∀ k, (find loaded k).isSome ↔ ∃ a, BeforeCut (indexedCode u encodeKey c) (save.list t) cut ⟨k,a⟩ ∧
    BeforeCut (valueCode u c) (savedValues u c) cutValues a

variable {encodeKey : κ → Bytes} {decodeKey : Bytes → Option κ}
variable (order : Listing κ ℕ) (save : Listing κ Ptr) (t : Table κ Ptr)

variable (ht : ∀ k x, find t k = some x → Encodes encodeKey decodeKey id k ∧ x ∈ savedValues u c)
include ht

theorem cutTable_find (cut cutValues : ℕ) (k : κ) (x : Ptr) :
    find (cutTable u i encodeKey decodeKey order save t c cut cutValues) k = some x ↔
      ∃ j a, j < restored t.entries.length ∧ (save.list t)[j]? = some ⟨k,a⟩ ∧
        endOf (indexedCode u encodeKey c) (save.list t) j ≤ cut ∧
        (cutPtrs u i c cutValues).1[(savedValues u c).idxOf a % 2^64]? = some x :=
  indexed_cut (collectValues_spec u.pair c.hashToMaster c.fileToMaster).1 order save t ht _ cut k x

theorem cutTable_infos (hv : (savedValues u c).length < 2^31) {cut cutValues : ℕ} {k : κ} {x : Ptr}
    (hx : find (cutTable u i encodeKey decodeKey order save t c cut cutValues) k = some x) :
    ∃ a, find t k = some a ∧ x ∈ (cutPtrs u i c cutValues).2.live ∧
      (cutPtrs u i c cutValues).2.cell x = c.cell a := by
  obtain ⟨j,a,_,hj,_,hget⟩ := (cutTable_find u i order save t ht cut cutValues k x).mp hx
  have hfind := (mem_listed save t).mp (List.mem_of_getElem? hj)
  have ha := (ht k a hfind).2
  have hpos := List.idxOf_lt_length_of_mem ha
  rw [Nat.mod_eq_of_lt (by omega)] at hget
  exact ⟨a,hfind,cutPtrs_cell u i ha hget⟩

theorem cutTable_exact (hn : t.entries.length < 2^31) (hv : (savedValues u c).length < 2^31)
    (cut cutValues : ℕ) : ExactKeys u encodeKey save t c cut cutValues
      (cutTable u i encodeKey decodeKey order save t c cut cutValues) := by
  have hnd : (savedValues u c).Nodup :=
    collected_nodup (collectValues_spec u.pair c.hashToMaster c.fileToMaster).1
  intro k
  rw [Option.isSome_iff_exists]
  constructor
  · rintro ⟨x,hx⟩
    obtain ⟨j,a,_,hj,hend,hget⟩ := (cutTable_find u i order save t ht cut cutValues k x).mp hx
    have ha := (ht k a ((mem_listed save t).mp (List.mem_of_getElem? hj))).2
    have hpos := List.idxOf_lt_length_of_mem ha
    rw [Nat.mod_eq_of_lt (by omega)] at hget
    obtain ⟨_,_,hcut⟩ := (cutPtrs_isSome u i cutValues _).mp (Option.isSome_of_eq_some hget)
    exact ⟨a,⟨j,hj,hend⟩,_,List.getElem?_idxOf ha,hcut⟩
  · rintro ⟨a,⟨j,hj,hend⟩,p,hp,hcut⟩
    obtain ⟨hlt,hval⟩ := List.getElem?_eq_some_iff.mp hp
    have hidx : (savedValues u c).idxOf a = p := by
      rw [←hval,hnd.idxOf_getElem p hlt]
    have hsome : ((cutPtrs u i c cutValues).1[p]?).isSome := by
      refine (cutPtrs_isSome u i cutValues p).mpr ⟨?_,hlt,hcut⟩
      rw [restored_eq hv]
      exact hlt
    obtain ⟨x,hx⟩ := Option.isSome_iff_exists.mp hsome
    refine ⟨x,(cutTable_find u i order save t ht cut cutValues k x).mpr ⟨j,a,?_,hj,hend,?_⟩⟩
    · rw [restored_eq hn,←(save.perm t).length_eq]
      exact (List.getElem?_eq_some_iff.mp hj).1
    · rw [hidx,Nat.mod_eq_of_lt (by omega)]
      exact hx

theorem uncut_small (hex : ExactKeys u encodeKey save t c
      (4+((save.list t).flatMap (indexedCode u encodeKey c)).length)
      (4+((savedValues u c).flatMap (valueCode u c)).length)
      (cutTable u i encodeKey decodeKey order save t c
        (4+((save.list t).flatMap (indexedCode u encodeKey c)).length)
        (4+((savedValues u c).flatMap (valueCode u c)).length))) :
    t.entries.length < 2^31 ∧ ∀ k a, find t k = some a →
      (savedValues u c).idxOf a % 2^64 < restored (savedValues u c).length := by
  have hentry : ∀ k a, find t k = some a → ∃ j, j < restored t.entries.length ∧
      (save.list t)[j]? = some ⟨k,a⟩ ∧
      (savedValues u c).idxOf a % 2^64 < restored (savedValues u c).length := by
    intro k a hk
    have hsome := (hex k).mpr ⟨a,beforeCut_uncut ((mem_listed save t).mpr hk),
      beforeCut_uncut (ht k a hk).2⟩
    obtain ⟨x,hx⟩ := Option.isSome_iff_exists.mp hsome
    obtain ⟨j,a',hj,hget,_,hval⟩ := (cutTable_find u i order save t ht _ _ k x).mp hx
    have hk' := (mem_listed save t).mp (List.mem_of_getElem? hget)
    cases Option.some.inj (hk.symm.trans hk')
    exact ⟨j,hj,hget,((cutPtrs_isSome u i _ _).mp (Option.isSome_of_eq_some hval)).1⟩
  refine ⟨?_,?_⟩
  · by_contra hlarge
    have hlt : restored t.entries.length < (save.list t).length := by
      rw [(save.perm t).length_eq]
      exact Nat.lt_of_lt_of_le (restored_lt _) (by omega)
    have hget := List.getElem?_eq_getElem hlt
    generalize (save.list t)[restored t.entries.length] = e at hget
    obtain ⟨j,hj,hget',_⟩ := hentry e.1 e.2 ((mem_listed save t).mp (List.mem_of_getElem? hget))
    have := (listed_unique save t hget hget').1
    omega
  · intro k a hk
    obtain ⟨_,_,_,hlt⟩ := hentry k a hk
    exact hlt

end Pair

/-- The loaded index has what lies before the cuts, with the saved objects, and
nothing else. -/
structure CutLoaded (c : Context) (k : Cuts) (d : Index × Heap) : Prop where
  hashToMaster : ExactKeys u encodeHash u.pair.save1 c.hashToMaster c k.hashToMaster k.values
    d.1.hashToMaster
  fileToMaster : ExactKeys u encodeBlockIndice u.pair.save2 c.fileToMaster c k.fileToMaster k.values
    d.1.fileToMaster
  hashInfos : ∀ h x, find d.1.hashToMaster h = some x →
    ∃ a, find c.hashToMaster h = some a ∧ x ∈ d.2.live ∧ d.2.cell x = c.cell a
  fileInfos : ∀ b x, find d.1.fileToMaster b = some x →
    ∃ a, find c.fileToMaster b = some a ∧ x ∈ d.2.live ∧ d.2.cell x = c.cell a
  fileToSizes : ∀ p n, find d.1.fileToSizes p = some n ↔
    BeforeCut (entryCode encodeStr encodeSize) (u.sizes.list c.fileToSizes) k.fileToSizes ⟨p,n⟩
  sizes : ∀ p n, find d.1.fileToSizes p = some n → find c.fileToSizes p = some n
  freePrefix : d.1.freeBlockList <+: c.freeBlockList
  freeBlockList : ∀ j < c.freeBlockList.length, j < d.1.freeBlockList.length ↔
    endOf (fun q => frame (encodeFreeBlock q)) c.freeBlockList j ≤ k.freeBlockList

def uncut (c : Context) : Cuts where
  hashToMaster := 4+((u.pair.save1.list c.hashToMaster).flatMap (indexedCode u encodeHash c)).length
  fileToMaster :=
    4+((u.pair.save2.list c.fileToMaster).flatMap (indexedCode u encodeBlockIndice c)).length
  values := 4+((savedValues u c).flatMap (valueCode u c)).length
  fileToSizes := 4+((u.sizes.list c.fileToSizes).flatMap (entryCode encodeStr encodeSize)).length
  freeBlockList := 4+(c.freeBlockList.flatMap (fun q => frame (encodeFreeBlock q))).length

theorem hash_keys (k : Hash) (x : Ptr) (hk : find c.hashToMaster k = some x) :
    Encodes encodeHash decodeHash id k ∧ x ∈ savedValues u c :=
  ⟨encodes_hash k,(mem_savedValues u x).mpr (Or.inl ⟨k,hk⟩)⟩

theorem file_keys (h : InRange c) (k : BlockIndice) (x : Ptr) (hk : find c.fileToMaster k = some x) :
    Encodes encodeBlockIndice decodeBlockIndice id k ∧ x ∈ savedValues u c :=
  ⟨encodes_blockIndice k (h.offsets k x hk),(mem_savedValues u x).mpr (Or.inr ⟨k,hk⟩)⟩

theorem cut_tables (h : InRange c) (k : Cuts) :
    (indexInit i (cutFiles k (indexDestroy u c))).1.hashToMaster =
      cutTable u i encodeHash decodeHash i.pair.load1 u.pair.save1 c.hashToMaster c
        k.hashToMaster k.values ∧
    (indexInit i (cutFiles k (indexDestroy u c))).1.fileToMaster =
      cutTable u i encodeBlockIndice decodeBlockIndice i.pair.load2 u.pair.save2 c.fileToMaster c
        k.fileToMaster k.values ∧
    (indexInit i (cutFiles k (indexDestroy u c))).2 = (cutPtrs u i c k.values).2 := by
  have hptrs := cutPtrs_loaded u i h k
  have hheap := congrArg Prod.snd hptrs
  refine ⟨?_,?_,hheap⟩
  · exact congrArg (fun v : List Ptr × Heap => loadIndexed i.pair.load1 decodeHash v.1
      (cutFiles k (indexDestroy u c)).pair.table1) hptrs
  · exact congrArg (fun v : List Ptr × Heap => loadIndexed i.pair.load2 decodeBlockIndice v.1
      (cutFiles k (indexDestroy u c)).pair.table2) hptrs

theorem cut_sizes (h : InRange c) (k : Cuts) (p : Path) (n : ℕ) :
    find (indexInit i (cutFiles k (indexDestroy u c))).1.fileToSizes p = some n ↔
      ∃ j, j < restored c.fileToSizes.entries.length ∧
        (u.sizes.list c.fileToSizes)[j]? = some ⟨p,n⟩ ∧
        endOf (entryCode encodeStr encodeSize) (u.sizes.list c.fileToSizes) j ≤ k.fileToSizes := by
  have henc : ∀ e ∈ u.sizes.list c.fileToSizes,
      Encodes encodeStr decodeStr id e.1 ∧ Encodes encodeSize decodeSize id e.2 := by
    intro e he
    have hfind := (mem_entries_iff c.fileToSizes e.1 e.2).mp ((u.sizes.perm _).mem_iff.mp he)
    exact ⟨encodes_str e.1,encodes_size e.2 (h.sizes e.1 e.2 hfind)⟩
  refine (ghashLoad_cut u.sizes c.fileToSizes (fun w e _ => stream_saveEntry encodeStr encodeSize w e)
    henc k.fileToSizes p n).trans ?_
  constructor
  · rintro ⟨j,a,hj,hget,hend,rfl⟩
    exact ⟨j,hj,hget,hend⟩
  · rintro ⟨j,hj,hget,hend⟩
    exact ⟨j,n,hj,hget,hend,rfl⟩

theorem cut_free (h : InRange c) (k : Cuts) :
    (indexInit i (cutFiles k (indexDestroy u c))).1.freeBlockList =
      c.freeBlockList.take (min (restored c.freeBlockList.length)
        (wholeCount (fun q => frame (encodeFreeBlock q)) (k.freeBlockList-4) c.freeBlockList)) := by
  have henc : ∀ q ∈ c.freeBlockList, Encodes encodeFreeBlock decodeFreeBlock id q :=
    fun q hq => encodes_freeBlock q (h.free q hq)
  have hload := loadAll_cut c.freeBlockList (fun w q _ => stream_writeElem w (encodeFreeBlock q))
    (fun q hq => ⟨readElem_recovers (henc q hq),readElem_stops (henc q hq)⟩)
    (fun q _ => frame_pos _) c.freeBlockList.length rfl k.freeBlockList
  rw [List.map_id] at hload
  exact hload

theorem cut_free_lt (h : InRange c) (k : Cuts) {j : ℕ} (hj : j < c.freeBlockList.length) :
    j < (indexInit i (cutFiles k (indexDestroy u c))).1.freeBlockList.length ↔
      j < restored c.freeBlockList.length ∧
        endOf (fun q => frame (encodeFreeBlock q)) c.freeBlockList j ≤ k.freeBlockList := by
  have hbefore := before_cut (fun q => frame (encodeFreeBlock q)) c.freeBlockList
    (fun q _ => frame_pos _) k.freeBlockList j
  rw [cut_free u i h k,List.length_take,Nat.lt_min,Nat.lt_min,hbefore]
  constructor
  · rintro ⟨⟨hr,_,hend⟩,_⟩
    exact ⟨hr,hend⟩
  · rintro ⟨hr,hend⟩
    exact ⟨⟨hr,hj,hend⟩,hj⟩

theorem cut_loaded (h : InRange c) (hs : SmallTables u c) (k : Cuts) :
    CutLoaded u c k (indexInit i (cutFiles k (indexDestroy u c))) := by
  obtain ⟨h₁,h₂,h₃⟩ := cut_tables u i h k
  have hv : (savedValues u c).length < 2^31 := hs.shared
  have hsizes := cut_sizes u i h k
  exact
    { hashToMaster := by
        rw [h₁]
        exact cutTable_exact u i i.pair.load1 u.pair.save1 c.hashToMaster (hash_keys u)
          hs.hashToMaster hv k.hashToMaster k.values
      fileToMaster := by
        rw [h₂]
        exact cutTable_exact u i i.pair.load2 u.pair.save2 c.fileToMaster (file_keys u h)
          hs.fileToMaster hv k.fileToMaster k.values
      hashInfos := by
        intro y x hx
        rw [h₁] at hx
        rw [h₃]
        exact cutTable_infos u i i.pair.load1 u.pair.save1 c.hashToMaster (hash_keys u) hv hx
      fileInfos := by
        intro b x hx
        rw [h₂] at hx
        rw [h₃]
        exact cutTable_infos u i i.pair.load2 u.pair.save2 c.fileToMaster (file_keys u h) hv hx
      fileToSizes := by
        intro p n
        rw [hsizes p n]
        refine exists_congr ?_
        intro j
        constructor
        · exact And.right
        · rintro ⟨hget,hend⟩
          have hlt := (List.getElem?_eq_some_iff.mp hget).1
          rw [(u.sizes.perm _).length_eq] at hlt
          exact ⟨by rwa [restored_eq hs.fileToSizes],hget,hend⟩
      sizes := by
        intro p n hp
        obtain ⟨j,_,hget,_⟩ := (hsizes p n).mp hp
        exact (mem_entries_iff c.fileToSizes p n).mp
          ((u.sizes.perm _).mem_iff.mp (List.mem_of_getElem? hget))
      freePrefix := by
        rw [cut_free u i h k]
        exact List.take_prefix ..
      freeBlockList := by
        intro j hj
        rw [cut_free_lt u i h k hj,restored_eq hs.freeBlockList]
        exact and_iff_right hj }

theorem uncut_loaded (h : InRange c)
    (hl : CutLoaded u c (uncut u c) (indexInit i (cutFiles (uncut u c) (indexDestroy u c)))) :
    SmallTables u c := by
  obtain ⟨h₁,h₂,_⟩ := cut_tables u i h (uncut u c)
  have hhash := hl.hashToMaster
  rw [h₁] at hhash
  have hfile := hl.fileToMaster
  rw [h₂] at hfile
  obtain ⟨s₁,v₁⟩ := uncut_small u i i.pair.load1 u.pair.save1 c.hashToMaster (hash_keys u) hhash
  obtain ⟨s₂,v₂⟩ := uncut_small u i i.pair.load2 u.pair.save2 c.fileToMaster (file_keys u h) hfile
  refine ⟨s₁,s₂,?_,?_,?_⟩
  · change (savedValues u c).length < 2^31
    by_contra hlarge
    have hrest := restored_lt (savedValues u c).length
    have hlt : restored (savedValues u c).length < (savedValues u c).length := by omega
    have hnd : (savedValues u c).Nodup :=
      collected_nodup (collectValues_spec u.pair c.hashToMaster c.fileToMaster).1
    have hidx := hnd.idxOf_getElem _ hlt
    -- the first object behind the count is still held by a key
    have hbound : (savedValues u c).idxOf (savedValues u c)[restored (savedValues u c).length] % 2^64 <
        restored (savedValues u c).length := by
      rcases (mem_savedValues u _).mp (List.getElem_mem hlt) with ⟨y,hy⟩ | ⟨b,hb⟩
      · exact v₁ y _ hy
      · exact v₂ b _ hb
    rw [hidx,Nat.mod_eq_of_lt (by omega)] at hbound
    omega
  · by_contra hlarge
    have hlt : restored c.fileToSizes.entries.length < (u.sizes.list c.fileToSizes).length := by
      rw [(u.sizes.perm _).length_eq]
      exact Nat.lt_of_lt_of_le (restored_lt _) (by omega)
    have hget := List.getElem?_eq_getElem hlt
    generalize (u.sizes.list c.fileToSizes)[restored c.fileToSizes.entries.length] = e at hget
    have hfind := (hl.fileToSizes e.1 e.2).mpr (beforeCut_uncut (List.mem_of_getElem? hget))
    obtain ⟨j,hj,hget',_⟩ := (cut_sizes u i h (uncut u c) e.1 e.2).mp hfind
    have := (listed_unique u.sizes c.fileToSizes hget hget').1
    omega
  · by_contra hlarge
    have hlt : restored c.freeBlockList.length < c.freeBlockList.length :=
      Nat.lt_of_lt_of_le (restored_lt _) (by omega)
    have hfree := (hl.freeBlockList _ hlt).mpr (endOf_le ..)
    have := ((cut_free_lt u i h (uncut u c) hlt).mp hfree).1
    omega

end Loaded

/-- Of five files cut anywhere exactly the entries before the cuts come back, when
and only when every count fits its `int`. -/
theorem cut_files_exact_iff (c : Context) (h : InRange c) (u : Unmounting) (i : Mounting) :
    (∀ k : Cuts, CutLoaded u c k (indexInit i (cutFiles k (indexDestroy u c)))) ↔ SmallTables u c :=
  ⟨fun hl => uncut_loaded u i h (hl (uncut u c)),fun hs k => cut_loaded u i h hs k⟩

theorem cut_files_exact_shared : ∃ m, Leads sampleSha512 sharedThenUnlinked m ∧ InRange m.ctx ∧
    SmallTables sampleUnmounting m.ctx ∧ m.ctx.freeBlockList = [1] ∧
    ∀ k : Cuts, CutLoaded sampleUnmounting m.ctx k
      (indexInit sampleMounting (cutFiles k (indexDestroy sampleUnmounting m.ctx))) := by
  obtain ⟨m,hr,hn,hs,hfree,_⟩ := sharedThenUnlinked_reached
  have hrange := ranged_inRange (run_ranged hr) hn
  exact ⟨m,hr,hrange,hs,hfree,
    (cut_files_exact_iff m.ctx hrange sampleUnmounting sampleMounting).mpr hs⟩

theorem equalFilled_entries {n : ℕ} {c : Context} (h : EqualFilled n c) :
    c.fileToMaster.entries.length = n := by
  refine BlockRefinement.filled_entries ?_
  intro p b
  rw [h.mapped]
  simp

/-- 2^31 blocks of one file: the count reads as negative, and nothing of the table
comes back, cut or not. -/
theorem large_table_lost : ∃ m, Leads sampleSha512 (equalWrites (2^31)) m ∧ InRange m.ctx ∧
    find m.ctx.fileToMaster ⟨fileA,0⟩ = some 1 ∧
    (∀ k b, find (indexInit sampleMounting
      (cutFiles k (indexDestroy sampleUnmounting m.ctx))).1.fileToMaster b = none) ∧
    ¬ CutLoaded sampleUnmounting m.ctx (uncut sampleUnmounting m.ctx) (indexInit sampleMounting
      (cutFiles (uncut sampleUnmounting m.ctx) (indexDestroy sampleUnmounting m.ctx))) := by
  obtain ⟨m,hm,hf⟩ := equalFilled_run (2^31-1) (by decide)
  have hfull : EqualFilled (2^31) m.ctx := hf
  have hlen := equalFilled_entries hfull
  have hrange := ranged_inRange (run_ranged hm) (by rw [hfull.next]; decide)
  refine ⟨m,hm,hrange,?_,?_,?_⟩
  · rw [hfull.mapped]
    exact if_pos ⟨rfl,by decide⟩
  · intro k b
    rw [(cut_tables sampleUnmounting sampleMounting hrange k).2.1,Option.eq_none_iff_forall_ne_some]
    intro x hx
    obtain ⟨j,_,hj,_⟩ := (cutTable_find sampleUnmounting sampleMounting _ _ _
      (file_keys sampleUnmounting hrange) _ _ b x).mp hx
    rw [hlen,restored_overflow (Nat.le_refl _) (by decide)] at hj
    exact absurd hj (Nat.not_lt_zero j)
  · intro hl
    have hsmall := (uncut_loaded sampleUnmounting sampleMounting hrange hl).fileToMaster
    rw [hlen] at hsmall
    exact absurd hsmall (Nat.lt_irrefl _)

end ArchivalDedup.CutFiles
