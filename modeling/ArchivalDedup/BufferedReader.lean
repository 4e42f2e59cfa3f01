import ArchivalDedup.BufferedWriter

/-!
# The buffered reader is a byte stream

However the `pread`s cut the file into pieces, calls of `buffered_read` deliver
consecutive slices of it, and a call fails exactly when it asks for more than is
left; a failed call has used up the rest. So the elements that are read through
the buffer are those that the unbuffered functions read, and those that were
written by either.
-/

set_option autoImplicit false

namespace ArchivalDedup.BufferedReader
open ArchivalDedup.Persistence hiding readElemBuffered writeElemBuffered
open ArchivalDedup.ByteMap ArchivalDedup.LittleEndian
open ArchivalDedup.BufferedFile ArchivalDedup.BufferedWriter

variable {file : Bytes} (grant : ℕ → ℕ)

/-- What the reader still has to deliver: the unread part of its buffer, then the
file from the offset on. -/
structure Holding (file : Bytes) (s : Input) (rest : Bytes) : Prop where
  ordered : s.ctx.bufferPos ≤ s.ctx.bufferEnd
  inside : s.ctx.bufferEnd ≤ s.ctx.bufferSize
  offset : s.ctx.fileOffset ≤ file.length
  rest : slice s.ctx.buffer s.ctx.bufferPos (s.ctx.bufferEnd-s.ctx.bufferPos)++
    file.drop s.ctx.fileOffset = rest

theorem preadCount_zero {want left granted : ℕ} : preadCount want left granted = 0 ↔ left = 0 := by
  unfold preadCount
  split_ifs <;> omega

theorem preadCount_le {want : ℕ} (left granted : ℕ) (h : 0 < want) :
    preadCount want left granted ≤ want ∧ preadCount want left granted ≤ left := by
  unfold preadCount
  split_ifs <;> omega

theorem refill_spec {s : Input} {rest : Bytes} (h : Holding file s rest)
    (he : s.ctx.bufferEnd-s.ctx.bufferPos = 0) :
    (rest = [] → (refillReadBuffer file grant s).2 = false ∧
      Holding file (refillReadBuffer file grant s).1 []) ∧
    (rest ≠ [] → (refillReadBuffer file grant s).2 = true ∧
      Holding file (refillReadBuffer file grant s).1 rest ∧
      0 < (refillReadBuffer file grant s).1.ctx.bufferEnd-
        (refillReadBuffer file grant s).1.ctx.bufferPos) := by
  have hrest : file.drop s.ctx.fileOffset = rest := by
    have := h.rest
    rwa [he,show slice s.ctx.buffer s.ctx.bufferPos 0 = [] from rfl,List.nil_append] at this
  have hlen : rest.length = file.length-s.ctx.fileOffset := by rw [←hrest,List.length_drop]
  constructor
  · rintro rfl
    have hz : preadCount s.ctx.bufferSize (file.length-s.ctx.fileOffset) (grant s.preads) = 0 :=
      preadCount_zero.mpr hlen.symm
    unfold refillReadBuffer
    dsimp only
    rw [if_pos hz]
    exact ⟨rfl,⟨h.ordered,h.inside,h.offset,h.rest⟩⟩
  · intro hne
    have hz : preadCount s.ctx.bufferSize (file.length-s.ctx.fileOffset) (grant s.preads) ≠ 0 := by
      intro hz
      exact hne (List.length_eq_zero_iff.mp (hlen.trans (preadCount_zero.mp hz)))
    obtain ⟨hwant,hleft⟩ := preadCount_le (file.length-s.ctx.fileOffset) (grant s.preads)
      s.ctx.nonempty
    unfold refillReadBuffer
    dsimp only
    rw [if_neg hz]
    generalize preadCount s.ctx.bufferSize (file.length-s.ctx.fileOffset) (grant s.preads) = n
      at hz hwant hleft
    have htake : ((file.drop s.ctx.fileOffset).take n).length = n := by
      rw [List.length_take,List.length_drop]
      omega
    refine ⟨rfl,⟨Nat.zero_le _,hwant,?_,?_⟩,?_⟩
    · have := h.offset
      dsimp only
      omega
    · have hself := slice_splice_self s.ctx.buffer 0 ((file.drop s.ctx.fileOffset).take n)
      rw [htake] at hself
      dsimp only
      rw [Nat.sub_zero,hself,←List.drop_drop,List.take_append_drop,hrest]
    · exact Nat.pos_of_ne_zero hz

theorem fetch_spec {s : Input} {rest : Bytes} (h : Holding file s rest) :
    (rest = [] → (fetch file grant s).2 = false ∧ Holding file (fetch file grant s).1 []) ∧
    (rest ≠ [] → (fetch file grant s).2 = true ∧ Holding file (fetch file grant s).1 rest ∧
      0 < (fetch file grant s).1.ctx.bufferEnd-(fetch file grant s).1.ctx.bufferPos) := by
  unfold fetch
  split_ifs with he
  · obtain ⟨hnil,hcons⟩ := refill_spec grant h he
    constructor
    · intro hr
      obtain ⟨hf,hh⟩ := hnil hr
      exact ⟨by simp [hf],hh⟩
    · intro hr
      obtain ⟨hf,hh,hpos⟩ := hcons hr
      exact ⟨by simp only [hf,Bool.true_and,decide_eq_true_eq]; omega,hh,hpos⟩
  · constructor
    · rintro rfl
      have := congrArg List.length h.rest
      simp only [List.length_append,slice_length,List.length_nil] at this
      omega
    · intro _
      exact ⟨rfl,h,Nat.pos_of_ne_zero he⟩

theorem holding_copy {s : Input} {rest : Bytes} (h : Holding file s rest) {n : ℕ}
    (hn : n ≤ s.ctx.bufferEnd-s.ctx.bufferPos) :
    slice s.ctx.buffer s.ctx.bufferPos n = rest.take n ∧
      Holding file { s with ctx := { s.ctx with bufferPos := s.ctx.bufferPos+n } } (rest.drop n) := by
  have hsplit := slice_append s.ctx.buffer s.ctx.bufferPos n
    (s.ctx.bufferEnd-s.ctx.bufferPos-n)
  rw [Nat.add_sub_cancel' hn] at hsplit
  have hr := h.rest
  rw [hsplit,List.append_assoc] at hr
  constructor
  · rw [←hr,List.take_left' (slice_length ..)]
  · refine ⟨?_,h.inside,h.offset,?_⟩
    · have := h.ordered
      dsimp only
      omega
    · rw [←hr,List.drop_left' (slice_length ..)]
      dsimp only
      rw [Nat.sub_sub]

/-- A call delivers the next bytes, or fails and leaves nothing. -/
theorem bufferedReadLoop_spec (fuel : ℕ) (s : Input) (rest : Bytes) (size : ℕ)
    (h : Holding file s rest) (hf : size ≤ fuel) :
    (size ≤ rest.length → (bufferedReadLoop file grant fuel s size).2 = some (rest.take size) ∧
      Holding file (bufferedReadLoop file grant fuel s size).1 (rest.drop size)) ∧
    (rest.length < size → (bufferedReadLoop file grant fuel s size).2 = none ∧
      Holding file (bufferedReadLoop file grant fuel s size).1 []) := by
  induction fuel generalizing s rest size with
  | zero =>
    have hz : size = 0 := by omega
    subst hz
    exact ⟨fun _ => ⟨rfl,h⟩,fun hlt => absurd hlt (Nat.not_lt_zero _)⟩
  | succ fuel ih =>
    by_cases hz : size = 0
    · subst hz
      exact ⟨fun _ => ⟨rfl,h⟩,fun hlt => absurd hlt (Nat.not_lt_zero _)⟩
    · obtain ⟨hnil,hcons⟩ := fetch_spec grant h
      rw [bufferedReadLoop,if_neg hz]
      generalize fetch file grant s = t at hnil hcons
      obtain ⟨t,ok⟩ := t
      by_cases hr : rest = []
      · obtain ⟨hok,ht⟩ := hnil hr
        subst hr
        cases hok
        exact ⟨fun hle => absurd (Nat.le_zero.mp hle) hz,fun _ => ⟨rfl,ht⟩⟩
      · obtain ⟨hok,ht,hpos⟩ := hcons hr
        cases hok
        dsimp only at ht hpos ⊢
        have hfit : t.ctx.bufferEnd-t.ctx.bufferPos ≤ rest.length := by
          rw [←ht.rest,List.length_append,slice_length]
          exact Nat.le_add_right ..
        obtain ⟨n,hn⟩ : ∃ n, n = min size (t.ctx.bufferEnd-t.ctx.bufferPos) := ⟨_,rfl⟩
        rw [←hn]
        obtain ⟨hslice,hnext⟩ := holding_copy ht (n := n) (by omega)
        obtain ⟨hall,hshort⟩ := ih _ _ (size-n) hnext (by omega)
        rw [List.length_drop] at hall hshort
        constructor
        · intro hle
          obtain ⟨hres,hleft⟩ := hall (by omega)
          have hsize : n+(size-n) = size := by omega
          rw [hres,Option.map_some,hslice,←List.take_add,hsize]
          rw [List.drop_drop,hsize] at hleft
          exact ⟨rfl,hleft⟩
        · intro hlt
          obtain ⟨hres,hleft⟩ := hshort (by omega)
          rw [hres]
          exact ⟨rfl,hleft⟩

theorem bufferedRead_full {s : Input} {rest : Bytes} (h : Holding file s rest) {size : ℕ}
    (hle : size ≤ rest.length) : (bufferedRead file grant s size).2 = some (rest.take size) ∧
      Holding file (bufferedRead file grant s size).1 (rest.drop size) :=
  (bufferedReadLoop_spec grant size s rest size h (Nat.le_refl _)).1 hle

theorem bufferedRead_short {s : Input} {rest : Bytes} (h : Holding file s rest) {size : ℕ}
    (hlt : rest.length < size) : (bufferedRead file grant s size).2 = none ∧
      Holding file (bufferedRead file grant s size).1 [] :=
  (bufferedReadLoop_spec grant size s rest size h (Nat.le_refl _)).2 hlt

/-! ## Sequences of calls -/

def readCalls (file : Bytes) (grant : ℕ → ℕ) : Input → List ℕ → List (Option Bytes)
  | _, [] => []
  | s, n::ns =>
    let t := bufferedRead file grant s n
    t.2::readCalls file grant t.1 ns

theorem readCalls_next (pre : List ℕ) (n : ℕ) (post : List ℕ) (s : Input) (rest : Bytes)
    (h : Holding file s rest) (hpre : pre.sum ≤ rest.length) :
    (readCalls file grant s (pre++n::post))[pre.length]? =
      some (if pre.sum+n ≤ rest.length then some ((rest.drop pre.sum).take n) else none) := by
  induction pre generalizing s rest with
  | nil =>
    simp only [List.nil_append,readCalls,List.length_nil,List.getElem?_cons_zero,List.sum_nil,
      Nat.zero_add,List.drop_zero]
    split_ifs with hn
    · rw [(bufferedRead_full grant h hn).1]
    · rw [(bufferedRead_short grant h (by omega)).1]
  | cons m pre ih =>
    rw [List.sum_cons] at hpre ⊢
    obtain ⟨_,hnext⟩ := bufferedRead_full grant h (show m ≤ rest.length by omega)
    have hih := ih _ _ hnext (by rw [List.length_drop]; omega)
    simp only [List.cons_append,readCalls,List.length_cons,List.getElem?_cons_succ]
    rw [hih,List.length_drop,List.drop_drop]
    have hiff : pre.sum+n ≤ rest.length-m ↔ m+pre.sum+n ≤ rest.length := by omega
    simp only [hiff]

/-! ## Elements -/

section Elements

variable {α : Type} (decode : Bytes → Option α)

def readUntil (readOne : Input → Input × Option α) : ℕ → Input → List α
  | 0, _ => []
  | n+1, s =>
    match readOne s with
    | (_,none) => []
    | (t,some a) => a::readUntil readOne n t

def elemsUnbuffered (file : Bytes) : ℕ → ℕ → List α
  | 0, _ => []
  | n+1, off =>
    match readElem file decode off with
    | (_,none) => []
    | (off',some a) => a::elemsUnbuffered file n off'

theorem readElem_same {s : Input} {off : ℕ} (h : Holding file s (file.drop off)) :
    (readElemBuffered file grant decode s).2 = (readElem file decode off).2 ∧
    ((readElem file decode off).2 ≠ none →
      Holding file (readElemBuffered file grant decode s).1
        (file.drop (readElem file decode off).1)) := by
  unfold readElemBuffered readElem
  by_cases h8 : 8 ≤ (file.drop off).length
  · obtain ⟨hsize,ht⟩ := bufferedRead_full grant h h8
    generalize bufferedRead file grant s 8 = t at hsize ht
    obtain ⟨t,o⟩ := t
    dsimp only at hsize ht
    subst hsize
    dsimp only
    have hlen : ((file.drop off).take 8).length = 8 := by
      rw [List.length_take]
      omega
    rw [List.drop_drop] at ht
    rw [if_neg (not_not.mpr hlen)]
    generalize leNat ((file.drop off).take 8) = size
    by_cases hall : size ≤ (file.drop (off+8)).length
    · obtain ⟨hbuf,hu⟩ := bufferedRead_full grant ht hall
      have hfull : ((file.drop (off+8)).take size).length = size := by
        rw [List.length_take]
        omega
      rw [if_neg (not_not.mpr hfull)]
      generalize bufferedRead file grant t size = u at hbuf hu
      obtain ⟨u,o⟩ := u
      dsimp only at hbuf hu ⊢
      subst hbuf
      rw [List.drop_drop] at hu
      exact ⟨rfl,fun _ => hu⟩
    · obtain ⟨hbuf,_⟩ := bufferedRead_short grant ht (Nat.lt_of_not_le hall)
      have hcut : ((file.drop (off+8)).take size).length ≠ size := by
        rw [List.length_take]
        omega
      rw [if_pos hcut]
      generalize bufferedRead file grant t size = u at hbuf
      obtain ⟨u,o⟩ := u
      dsimp only at hbuf ⊢
      subst hbuf
      exact ⟨rfl,fun hn => absurd rfl hn⟩
  · obtain ⟨hsize,_⟩ := bufferedRead_short grant h (Nat.lt_of_not_le h8)
    have hcut : ((file.drop off).take 8).length ≠ 8 := by
      rw [List.length_take]
      omega
    rw [if_pos hcut]
    generalize bufferedRead file grant s 8 = t at hsize
    obtain ⟨t,o⟩ := t
    dsimp only at hsize ⊢
    subst hsize
    exact ⟨rfl,fun hn => absurd rfl hn⟩

def untilNull : List (Option α) → List α
  | some a::xs => a::untilNull xs
  | _ => []

theorem readElem_frame {file : Bytes} {off : ℕ} {b tail : Bytes} (h : file.drop off = frame b++tail)
    (hb : b.length < 2^64) : readElem file decode off = (off+8+b.length,decode b) := by
  have hsize : (file.drop off).take 8 = leBytes 8 b.length := by
    rw [h,frame,List.append_assoc,List.take_left' (leBytes_length 8 _)]
  have hnat : leNat (leBytes 8 b.length) = b.length :=
    leNat_leBytes_of_lt (Nat.lt_of_lt_of_eq hb (by decide))
  have hbuf : (file.drop (off+8)).take b.length = b := by
    rw [←List.drop_drop,h,frame,List.append_assoc,List.drop_left' (leBytes_length 8 _),
      List.take_left' rfl]
  unfold readElem
  simp only [hsize,leBytes_length,hnat,hbuf,ne_eq,not_true_eq_false,if_false]

theorem elems_frames (bs : List Bytes) (hb : ∀ b ∈ bs, b.length < 2^64) (n off : ℕ) {file : Bytes}
    (h : file.drop off = bs.flatMap frame) :
    elemsUnbuffered decode file n off = untilNull ((bs.map decode).take n) := by
  induction n generalizing bs off with
  | zero => rfl
  | succ n ih =>
    cases bs with
    | nil =>
      have hnone : readElem file decode off = (off,none) := by
        unfold readElem
        rw [h]
        rfl
      rw [elemsUnbuffered,hnone]
      rfl
    | cons b bs =>
      rw [List.flatMap_cons] at h
      rw [elemsUnbuffered,readElem_frame decode h (hb b (by simp)),List.map_cons,List.take_succ_cons]
      cases decode b with
      | none => rfl
      | some a =>
        refine congrArg (a::·) (ih bs (fun x hx => hb x (by simp [hx])) _ ?_)
        rw [Nat.add_assoc,←List.drop_drop,h]
        exact List.drop_left' (by simp [frame])

end Elements

/-! ## Files of elements -/

def unbufferedFile (bs : List Bytes) : Bytes := (bs.foldl writeElem ([],0)).1

def bufferedFile (memory : ℕ → UInt8) (bufferSize : ℕ) (hpos : 0 < bufferSize)
    (hfits : bufferSize < 2^64) (bs : List Bytes) : Bytes :=
  (flushWriteBuffer .complete (bs.foldl (writeElemBuffered (fun _ => .complete))
    (newWriter memory bufferSize hpos hfits).toOutput)).file

theorem writeElem_append (file b : Bytes) :
    writeElem (file,file.length) b = (file++frame b,(file++frame b).length) := by
  have hnext : file.length+8 = (file++leBytes 8 b.length).length := by simp
  unfold writeElem frame
  dsimp only
  rw [pwriteAt_end,hnext,pwriteAt_end,List.append_assoc]
  simp [Nat.add_assoc]

theorem unbuffered_frames (bs : List Bytes) : unbufferedFile bs = bs.flatMap frame := by
  have hfold : ∀ (bs : List Bytes) (file : Bytes), bs.foldl writeElem (file,file.length) =
      (file++bs.flatMap frame,(file++bs.flatMap frame).length) := by
    intro bs
    induction bs with
    | nil => simp
    | cons b bs ih =>
      intro file
      rw [List.foldl_cons,writeElem_append,ih,List.flatMap_cons,List.append_assoc]
  exact congrArg Prod.fst (hfold bs [])

theorem buffered_frames (memory : ℕ → UInt8) (bufferSize : ℕ) (hpos : 0 < bufferSize)
    (hfits : bufferSize < 2^64) (bs : List Bytes) :
    bufferedFile memory bufferSize hpos hfits bs = bs.flatMap frame := by
  have hfold : ∀ (bs : List Bytes) (s : Output),
      bs.foldl (writeElemBuffered (fun _ => .complete)) s =
        (bs.flatMap (fun b => [leBytes 8 b.length,b])).foldl
          (bufferedWrite (fun _ => .complete)) s := by
    intro bs
    induction bs with
    | nil => simp
    | cons b bs ih =>
      intro s
      rw [List.foldl_cons,ih,List.flatMap_cons,List.foldl_append]
      rfl
  unfold bufferedFile
  rw [hfold,complete_file]
  induction bs with
  | nil => rfl
  | cons b bs ih =>
    rw [List.flatMap_cons,List.flatMap_cons,List.flatten_append,ih]
    simp [frame]

/-! ## The reader -/

section Start

variable (memory : ℕ → UInt8) (bufferSize : ℕ) (hpos : 0 < bufferSize) (hfits : bufferSize < 2^64)

def newReader : Input := ⟨bufferedIoInit memory bufferSize hpos hfits,0⟩

theorem holding_new (file : Bytes) : Holding file (newReader memory bufferSize hpos hfits) file where
  ordered := Nat.le_refl _
  inside := Nat.zero_le _
  offset := Nat.zero_le _
  rest := rfl

end Start

end ArchivalDedup.BufferedReader
