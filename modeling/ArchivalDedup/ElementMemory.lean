import ArchivalDedup.BufferedReader

/-!
# Elements in memory that `malloc` may refuse

A length prefix can ask for any size, and neither `read_elem_buffered` nor
`read_elem` looks at what `malloc` returns. Through a NULL pointer the first copies,
while the second hands it to `pread`, whose -1 is compared with a `size_t`. The two
read the same elements exactly when no length prefix on the way is refused.
-/

set_option autoImplicit false

namespace ArchivalDedup.ElementMemory
open ArchivalDedup.Persistence hiding readElemBuffered writeElemBuffered
open ArchivalDedup.ByteMap ArchivalDedup.LittleEndian
open ArchivalDedup.BufferedFile ArchivalDedup.BufferedWriter ArchivalDedup.BufferedReader

/-- The sizes that `malloc` serves: size 0 always, and none above PTRDIFF_MAX. -/
structure Allocator where
  serves : ℕ → Bool
  zero : serves 0 = true
  bounded : ∀ n, serves n = true → n < 2^63

/-- An element, NULL, or a NULL pointer in `memcpy` or in the decoder. -/
inductive Outcome (α : Type) where
  | elem (a : α)
  | null
  | stray
  deriving DecidableEq

def Outcome.ofOption {α : Type} : Option α → Outcome α
  | some a => .elem a
  | none => .null

section Elements

variable (al : Allocator) {α : Type} (decode : Bytes → Option α)

/-- With a NULL buffer `buffered_read` returns FALSE at the end of the file and
otherwise copies to NULL. -/
def readElemBufferedIn (file : Bytes) (grant : ℕ → ℕ) (s : Input) : Input × Outcome α :=
  match bufferedRead file grant s 8 with
  | (t,none) => (t,.null)
  | (t,some size) =>
    if al.serves (leNat size) then
      match bufferedRead file grant t (leNat size) with
      | (u,none) => (u,.null)
      | (u,some buf) => (u,.ofOption (decode buf))
    else
      match fetch file grant t with
      | (u,false) => (u,.null)
      | (u,true) => (u,.stray)

/-- What `pread` returns for a NULL buffer: EFAULT when there is a byte to copy,
EINVAL for a count that is no `ssize_t`. -/
def preadNull (file : Bytes) (off count : ℕ) : ℤ :=
  if 2^63 ≤ count ∨ off < file.length then -1 else 0

def readElemIn (file : Bytes) (off : ℕ) : ℕ × Outcome α :=
  let size := (file.drop off).take 8
  if size.length ≠ 8 then (off,.null)
  else if al.serves (leNat size) then
    let buf := (file.drop (off+8)).take (leNat size)
    if buf.length ≠ leNat size then (off+8,.null)
    else (off+8+leNat size,.ofOption (decode buf))
  -- the result is converted to `size_t` before the comparison
  else if preadNull file (off+8) (leNat size) % 2^64 ≠ leNat size then (off+8,.null)
  else (off+8+leNat size,.stray)

def outcomes {β : Type} (readOne : β → β × Outcome α) : ℕ → β → List (Outcome α)
  | 0, _ => []
  | n+1, s =>
    match readOne s with
    | (t,.elem a) => .elem a::outcomes readOne n t
    | (_,o) => [o]

def elements (os : List (Outcome α)) : List α :=
  os.filterMap (fun
    | .elem a => some a
    | _ => none)

end Elements

/-- What is left of a file when an element is begun. -/
inductive Begun (file : Bytes) : Bytes → Prop where
  | start : Begun file file
  | next {rest : Bytes} : Begun file rest → 8 ≤ rest.length →
      leNat (rest.take 8) ≤ (rest.drop 8).length →
      Begun file ((rest.drop 8).drop (leNat (rest.take 8)))

/-- The length prefix here is served, or nothing follows it and it is not -1. -/
def ServedAt (al : Allocator) (rest : Bytes) : Prop :=
  8 ≤ rest.length → al.serves (leNat (rest.take 8)) = true ∨
    rest.length = 8 ∧ leNat (rest.take 8) ≠ 2^64-1

def Served (al : Allocator) (file : Bytes) : Prop := ∀ rest, Begun file rest → ServedAt al rest

variable {al : Allocator} {file : Bytes} (grant : ℕ → ℕ)

section One

variable {α : Type} (decode : Bytes → Option α) {s : Input} {off : ℕ}

theorem refused_pos {n : ℕ} (h : ¬ al.serves n = true) : n ≠ 0 := by
  rintro rfl
  exact h al.zero

theorem prefix_length {rest : Bytes} : (rest.take 8).length = 8 ↔ 8 ≤ rest.length := by
  rw [List.length_take]
  omega

theorem readElemIn_end (h8 : (file.drop off).length = 8)
    (hal : ¬ al.serves (leNat ((file.drop off).take 8)) = true)
    (hne : leNat ((file.drop off).take 8) ≠ 2^64-1) :
    (readElemIn al decode file off).2 = .null ∧ (readElem file decode off).2 = none := by
  have hp : ((file.drop off).take 8).length = 8 := prefix_length.mpr h8.ge
  have hend : ¬ off+8 < file.length := by
    rw [List.length_drop] at h8
    omega
  have hpos := refused_pos hal
  unfold readElemIn readElem
  dsimp only
  rw [if_neg (not_not.mpr hp),if_neg (not_not.mpr hp),if_neg hal]
  generalize leNat ((file.drop off).take 8) = n at hne hpos
  constructor
  · have hnull : preadNull file (off+8) n % 2^64 ≠ n := by
      unfold preadNull
      split_ifs <;> omega
    rw [if_pos hnull]
  · have hshort : ((file.drop (off+8)).take n).length ≠ n := by
      rw [List.length_take,List.length_drop]
      omega
    rw [if_pos hshort]

theorem readElemIn_served (hs : ServedAt al (file.drop off)) :
    (readElemIn al decode file off).2 = .ofOption (readElem file decode off).2 ∧
    ((readElem file decode off).2 ≠ none →
      (readElemIn al decode file off).1 = (readElem file decode off).1) := by
  by_cases h8 : 8 ≤ (file.drop off).length
  · by_cases hal : al.serves (leNat ((file.drop off).take 8)) = true
    · unfold readElemIn readElem
      simp only [prefix_length.mpr h8,hal,ne_eq,not_true_eq_false,if_false,if_true]
      split_ifs
      · exact ⟨rfl,fun _ => rfl⟩
      · exact ⟨rfl,fun _ => rfl⟩
    · obtain ⟨hend,hne⟩ := (hs h8).resolve_left hal
      obtain ⟨h₁,h₂⟩ := readElemIn_end decode hend hal hne
      rw [h₁,h₂]
      exact ⟨rfl,fun h => absurd rfl h⟩
  · have hp : ¬ ((file.drop off).take 8).length = 8 := fun h => h8 (prefix_length.mp h)
    unfold readElemIn readElem
    simp only [hp,ne_eq,not_false_eq_true,if_true]
    exact ⟨rfl,fun h => absurd trivial h⟩

theorem readElemBufferedIn_refused (h : Holding file s (file.drop off))
    (h8 : 8 ≤ (file.drop off).length)
    (hal : ¬ al.serves (leNat ((file.drop off).take 8)) = true) :
    (readElemBufferedIn al decode file grant s).2 =
      if (file.drop off).length = 8 then .null else .stray := by
  obtain ⟨hsize,ht⟩ := bufferedRead_full grant h h8
  have hrest : (file.drop off).drop 8 = [] ↔ (file.drop off).length = 8 := by
    rw [List.drop_eq_nil_iff]
    omega
  obtain ⟨hnil,hcons⟩ := fetch_spec grant ht
  unfold readElemBufferedIn
  generalize bufferedRead file grant s 8 = t at hsize ht hnil hcons
  obtain ⟨t,o⟩ := t
  dsimp only at hsize ht hnil hcons ⊢
  subst hsize
  dsimp only
  rw [if_neg hal]
  by_cases hend : (file.drop off).length = 8
  · have hf := (hnil (hrest.mpr hend)).1
    rw [if_pos hend]
    generalize fetch file grant t = u at hf
    obtain ⟨u,ok⟩ := u
    cases hf
    rfl
  · have hf := (hcons (fun hn => hend (hrest.mp hn))).1
    rw [if_neg hend]
    generalize fetch file grant t = u at hf
    obtain ⟨u,ok⟩ := u
    cases hf
    rfl

theorem readElemBufferedIn_granted
    (hal : 8 ≤ (file.drop off).length → al.serves (leNat ((file.drop off).take 8)) = true)
    (h : Holding file s (file.drop off)) : readElemBufferedIn al decode file grant s =
      ((readElemBuffered file grant decode s).1,
        .ofOption (readElemBuffered file grant decode s).2) := by
  unfold readElemBufferedIn readElemBuffered
  by_cases h8 : 8 ≤ (file.drop off).length
  · obtain ⟨hsize,_⟩ := bufferedRead_full grant h h8
    generalize bufferedRead file grant s 8 = t at hsize
    obtain ⟨t,o⟩ := t
    dsimp only at hsize
    subst hsize
    dsimp only
    rw [if_pos (hal h8)]
    generalize bufferedRead file grant t _ = u
    obtain ⟨u,o⟩ := u
    cases o <;> rfl
  · obtain ⟨hsize,_⟩ := bufferedRead_short grant h (Nat.lt_of_not_le h8)
    generalize bufferedRead file grant s 8 = t at hsize
    obtain ⟨t,o⟩ := t
    dsimp only at hsize
    subst hsize
    rfl

theorem readElemBufferedIn_served (hs : ServedAt al (file.drop off))
    (h : Holding file s (file.drop off)) :
    (readElemBufferedIn al decode file grant s).2 = .ofOption (readElem file decode off).2 ∧
    ((readElem file decode off).2 ≠ none →
      Holding file (readElemBufferedIn al decode file grant s).1
        (file.drop (readElem file decode off).1)) := by
  by_cases hall : 8 ≤ (file.drop off).length →
      al.serves (leNat ((file.drop off).take 8)) = true
  · rw [readElemBufferedIn_granted grant decode hall h]
    obtain ⟨hres,hnext⟩ := readElem_same grant decode h
    exact ⟨congrArg Outcome.ofOption hres,hnext⟩
  · rw [Classical.not_imp] at hall
    obtain ⟨h8,hal⟩ := hall
    obtain ⟨hend,hne⟩ := (hs h8).resolve_left hal
    rw [readElemBufferedIn_refused grant decode h h8 hal,if_pos hend,
      (readElemIn_end decode hend hal hne).2]
    exact ⟨rfl,fun h => absurd rfl h⟩

theorem refused_strays (hs : ¬ ServedAt al (file.drop off)) (h : Holding file s (file.drop off)) :
    (readElemBufferedIn al decode file grant s).2 = .stray ∨
      (readElemIn al decode file off).2 = .stray := by
  unfold ServedAt at hs
  rw [Classical.not_imp,not_or,not_and_or,not_not] at hs
  obtain ⟨h8,hal,hend⟩ := hs
  by_cases hlen : (file.drop off).length = 8
  · right
    have hmax := hend.resolve_left (not_not.mpr hlen)
    unfold readElemIn
    dsimp only
    rw [if_neg (not_not.mpr (prefix_length.mpr h8)),if_neg hal,hmax]
    have hall : ¬ preadNull file (off+8) (2^64-1) % 2^64 ≠ (2^64-1 : ℕ) := by
      unfold preadNull
      rw [if_pos (Or.inl (by decide))]
      decide
    rw [if_neg hall]
  · left
    rw [readElemBufferedIn_refused grant decode h h8 hal,if_neg hlen]

theorem begun_next (hb : Begun file (file.drop off)) (hn : (readElem file decode off).2 ≠ none) :
    Begun file (file.drop (readElem file decode off).1) := by
  unfold readElem at hn ⊢
  dsimp only at hn ⊢
  split_ifs at hn ⊢ with h8 hshort
  · exact absurd rfl hn
  · exact absurd rfl hn
  · have hnext := hb.next (prefix_length.mp (not_not.mp h8))
    rw [List.drop_drop,List.drop_drop] at hnext
    refine hnext ?_
    have := not_not.mp hshort
    rw [List.length_take] at this
    omega

end One

section Many

variable {α : Type} (decode : Bytes → Option α)

theorem outcomes_elem {β : Type} {readOne : β → β × Outcome α} {s : β} {a : α}
    (h : (readOne s).2 = .elem a) (n : ℕ) :
    outcomes readOne (n+1) s = .elem a::outcomes readOne n (readOne s).1 := by
  rw [outcomes]
  generalize readOne s = t at h
  obtain ⟨t,o⟩ := t
  dsimp only at h
  subst h
  rfl

theorem outcomes_end {β : Type} {readOne : β → β × Outcome α} {s : β} (n : ℕ)
    (h : ∀ a, (readOne s).2 ≠ .elem a) : outcomes readOne (n+1) s = [(readOne s).2] := by
  rw [outcomes]
  generalize readOne s = t at h
  obtain ⟨t,o⟩ := t
  cases o with
  | elem a => exact absurd rfl (h a)
  | null => rfl
  | stray => rfl

theorem outcomes_one {β : Type} (readOne : β → β × Outcome α) (s : β) :
    outcomes readOne 1 s = [(readOne s).2] := by
  cases hr : (readOne s).2 with
  | elem a => exact outcomes_elem hr 0
  | null => rw [outcomes_end 0 (by simp [hr]),hr]
  | stray => rw [outcomes_end 0 (by simp [hr]),hr]

theorem outcomes_served (hserved : Served al file) (n : ℕ) (s : Input) (off : ℕ)
    (hb : Begun file (file.drop off)) (h : Holding file s (file.drop off)) :
    outcomes (readElemBufferedIn al decode file grant) n s =
      outcomes (readElemIn al decode file) n off ∧
    .stray ∉ outcomes (readElemIn al decode file) n off ∧
    elements (outcomes (readElemIn al decode file) n off) = elemsUnbuffered decode file n off := by
  induction n generalizing s off with
  | zero => exact ⟨rfl,by simp [outcomes],rfl⟩
  | succ n ih =>
    have hs := hserved _ hb
    obtain ⟨hbuf,hhold⟩ := readElemBufferedIn_served grant decode hs h
    obtain ⟨hun,hoff⟩ := readElemIn_served decode hs
    rw [elemsUnbuffered]
    cases hr : readElem file decode off with
    | mk off' o =>
      rw [hr] at hbuf hun hhold hoff
      cases o with
      | none =>
        rw [outcomes_end n (by simp [hbuf,Outcome.ofOption]),
          outcomes_end n (by simp [hun,Outcome.ofOption]),hbuf,hun]
        exact ⟨rfl,by simp [Outcome.ofOption],rfl⟩
      | some a =>
        have hne : some a ≠ none := Option.some_ne_none a
        have hb' := begun_next decode hb (by rw [hr]; exact hne)
        rw [hr] at hb'
        obtain ⟨h₁,h₂,h₃⟩ := ih _ _ hb' (hhold hne)
        rw [outcomes_elem hbuf,outcomes_elem hun,hoff hne,h₁]
        refine ⟨rfl,?_,?_⟩
        · simpa using h₂
        · simp only [elements,List.filterMap_cons] at h₃ ⊢
          rw [h₃]

end Many

/-! ## Every length on the way is served -/

/-- The two read the same, and neither strays. -/
def SameReading (al : Allocator) (grant : ℕ → ℕ) (start : Input) (file : Bytes) : Prop :=
  ∀ (α : Type) (decode : Bytes → Option α) (n : ℕ),
    outcomes (readElemBufferedIn al decode file grant) n start =
      outcomes (readElemIn al decode file) n 0 ∧
    .stray ∉ outcomes (readElemIn al decode file) n 0

/-- The raw elements that are read on the way to where an element is begun. -/
structure Arrives (al : Allocator) (grant : ℕ → ℕ) (start : Input) (file rest : Bytes)
    (pre : List (Outcome Bytes)) (s : Input) (off : ℕ) : Prop where
  rest : rest = file.drop off
  holding : Holding file s (file.drop off)
  buffered : ∀ n, outcomes (readElemBufferedIn al some file grant) (pre.length+n) start =
    pre++outcomes (readElemBufferedIn al some file grant) n s
  unbuffered : ∀ n, outcomes (readElemIn al some file) (pre.length+n) 0 =
    pre++outcomes (readElemIn al some file) n off

variable {start s : Input} {rest : Bytes} {pre : List (Outcome Bytes)} {off : ℕ}

theorem arrives_served (hsame : SameReading al grant start file)
    (h : Arrives al grant start file rest pre s off) : ServedAt al rest := by
  obtain ⟨heq,hstray⟩ := hsame Bytes some (pre.length+1)
  rw [h.buffered,h.unbuffered,outcomes_one,outcomes_one] at heq
  rw [h.unbuffered,outcomes_one] at hstray
  have hone := List.append_cancel_left heq
  by_contra hnot
  rw [h.rest] at hnot
  rcases refused_strays grant some hnot h.holding with hs | hs
  · rw [hs] at hone
    exact hstray (by rw [←hone]; simp)
  · rw [hs] at hstray
    exact hstray (by simp)

theorem arrives_next (hsame : SameReading al grant start file)
    (h : Arrives al grant start file rest pre s off) (h8 : 8 ≤ rest.length)
    (hfull : leNat (rest.take 8) ≤ (rest.drop 8).length) :
    ∃ pre' s' off', Arrives al grant start file
      ((rest.drop 8).drop (leNat (rest.take 8))) pre' s' off' := by
  have hs := arrives_served grant hsame h
  have hrest := h.rest
  subst hrest
  have helem : readElem file some off = (off+8+leNat ((file.drop off).take 8),
      some ((file.drop (off+8)).take (leNat ((file.drop off).take 8)))) := by
    rw [List.drop_drop] at hfull
    have hlen : ((file.drop (off+8)).take (leNat ((file.drop off).take 8))).length =
        leNat ((file.drop off).take 8) := by
      rw [List.length_take]
      omega
    unfold readElem
    dsimp only
    rw [if_neg (not_not.mpr (prefix_length.mpr h8)),if_neg (not_not.mpr hlen)]
  obtain ⟨hbuf,hhold⟩ := readElemBufferedIn_served grant some hs h.holding
  obtain ⟨hun,hoff⟩ := readElemIn_served some hs
  rw [helem] at hbuf hhold hun hoff
  dsimp only at hhold hoff
  have hne := hoff (Option.some_ne_none _)
  refine ⟨pre++[.elem ((file.drop (off+8)).take (leNat ((file.drop off).take 8)))],_,
    off+8+leNat ((file.drop off).take 8),⟨?_,hhold (Option.some_ne_none _),?_,?_⟩⟩
  · rw [List.drop_drop,List.drop_drop,Nat.add_assoc]
  · intro n
    rw [List.length_append,List.length_singleton,Nat.add_assoc,Nat.add_comm 1 n,h.buffered,
      outcomes_elem hbuf,List.append_assoc]
    rfl
  · intro n
    rw [List.length_append,List.length_singleton,Nat.add_assoc,Nat.add_comm 1 n,h.unbuffered,
      outcomes_elem hun,hne,List.append_assoc]
    rfl

theorem served_of_same (hnew : Holding file start file) (hsame : SameReading al grant start file) :
    Served al file := by
  have harrives : ∀ rest, Begun file rest → ∃ pre s off, Arrives al grant start file rest pre s off := by
    intro rest hb
    induction hb with
    | start => exact ⟨[],start,0,rfl,hnew,fun n => by simp,fun n => by simp⟩
    | next _ h8 hfull ih =>
      obtain ⟨pre,s,off,h⟩ := ih
      exact arrives_next grant hsame h h8 hfull
  intro rest hb
  obtain ⟨pre,s,off,h⟩ := harrives rest hb
  exact arrives_served grant hsame h

/-- The reader is a byte stream, reads the elements that `read_elem` reads and gives
written elements back. -/
structure ReaderFaithful (al : Allocator) (grant : ℕ → ℕ) (start : Input) (file : Bytes) :
    Prop where
  slices : ∀ (pre : List ℕ) (n : ℕ) (post : List ℕ), pre.sum ≤ file.length →
    (readCalls file grant start (pre++n::post))[pre.length]? =
      some (if pre.sum+n ≤ file.length then some ((file.drop pre.sum).take n) else none)
  same : SameReading al grant start file
  written : ∀ bs : List Bytes, (∀ b ∈ bs, b.length < 2^64) →
    (∀ memory size hpos hfits, bufferedFile memory size hpos hfits bs = unbufferedFile bs) ∧
    (file = unbufferedFile bs → ∀ (α : Type) (decode : Bytes → Option α) (n : ℕ),
      elements (outcomes (readElemBufferedIn al decode file grant) n start) =
        untilNull ((bs.map decode).take n))

/-- The buffered reader does all that exactly when `malloc` serves every length prefix
on the way, those apart that end the file. -/
theorem reader_faithful_iff (al : Allocator) (grant : ℕ → ℕ) (memory : ℕ → UInt8)
    (bufferSize : ℕ) (hpos : 0 < bufferSize) (hfits : bufferSize < 2^64) (file : Bytes) :
    ReaderFaithful al grant (newReader memory bufferSize hpos hfits) file ↔ Served al file := by
  have hnew := holding_new memory bufferSize hpos hfits file
  constructor
  · intro h
    exact served_of_same grant hnew h.same
  · intro hserved
    have hall := fun (α : Type) (decode : Bytes → Option α) n =>
      outcomes_served grant decode hserved n _ 0 .start hnew
    refine ⟨fun pre n post hpre => readCalls_next grant pre n post _ file hnew hpre,?_,?_⟩
    · intro α decode n
      obtain ⟨h₁,h₂,_⟩ := hall α decode n
      exact ⟨h₁,h₂⟩
    · intro bs hb
      rw [unbuffered_frames]
      refine ⟨fun memory' size' hpos' hfits' => buffered_frames memory' size' hpos' hfits' bs,?_⟩
      intro hfile α decode n
      obtain ⟨h₁,_,h₃⟩ := hall α decode n
      rw [h₁,h₃]
      exact elems_frames decode bs hb n 0 hfile

theorem frame_leads {b : Bytes} (tail : Bytes) (hb : b.length < 2^64) :
    leNat ((frame b++tail).take 8) = b.length ∧ (frame b++tail).drop 8 = b++tail := by
  unfold frame
  rw [List.append_assoc,List.take_left' (leBytes_length 8 _),List.drop_left' (leBytes_length 8 _)]
  exact ⟨leNat_leBytes_of_lt (Nat.lt_of_lt_of_eq hb (by decide)),rfl⟩

theorem served_frames {bs : List Bytes} (h : ∀ b ∈ bs, al.serves b.length = true) :
    Served al (bs.flatMap frame) := by
  have hsize : ∀ b ∈ bs, b.length < 2^64 := by
    intro b hb
    have := al.bounded _ (h b hb)
    omega
  have hframes : ∀ rest, Begun (bs.flatMap frame) rest →
      ∃ bs' : List Bytes, (∀ b ∈ bs', b ∈ bs) ∧ rest = bs'.flatMap frame := by
    intro rest hb
    induction hb with
    | start => exact ⟨bs,fun _ hb => hb,rfl⟩
    | next _ h8 _ ih =>
      obtain ⟨bs',hsub,rfl⟩ := ih
      cases bs' with
      | nil => exact absurd h8 (by decide)
      | cons b bs' =>
        obtain ⟨hlen,hdrop⟩ := frame_leads (bs'.flatMap frame) (hsize b (hsub b (by simp)))
        refine ⟨bs',fun x hx => hsub x (by simp [hx]),?_⟩
        rw [List.flatMap_cons,hlen,hdrop,List.drop_left' rfl]
  intro rest hb h8
  obtain ⟨bs',hsub,rfl⟩ := hframes rest hb
  cases bs' with
  | nil => exact absurd h8 (by decide)
  | cons b bs' =>
    left
    rw [List.flatMap_cons,(frame_leads _ (hsize b (hsub b (by simp)))).1]
    exact h b (hsub b (by simp))

/-! ## Samples -/

theorem addressSpace_zero : decide (0 < 2^47) = true := by decide

theorem addressSpace_bounded (n : ℕ) (h : decide (n < 2^47) = true) : n < 2^63 := by
  have := of_decide_eq_true h
  omega

/-- The addresses of a process end at 2^47. -/
def addressSpace : Allocator := ⟨fun n => decide (n < 2^47),addressSpace_zero,addressSpace_bounded⟩

/-- A buffer of three bytes and `pread`s of one or two: every length prefix and
the first element straddle refills. -/
theorem reader_faithful_straddling :
    ReaderFaithful addressSpace (fun k => k % 3) (newReader (fun _ => 0) 3 (by decide) (by decide))
      ([[1,2,3,4,5],[],[6]].flatMap frame) ∧
    elements (outcomes (readElemBufferedIn addressSpace some ([[1,2,3,4,5],[],[6]].flatMap frame)
      (fun k => k % 3)) 4 (newReader (fun _ => 0) 3 (by decide) (by decide))) =
        [[1,2,3,4,5],[],[6]] := by
  have h := (reader_faithful_iff addressSpace (fun k => k % 3) (fun _ => 0) 3 (by decide) (by decide)
    ([[1,2,3,4,5],[],[6]].flatMap frame)).mpr (served_frames (by decide))
  refine ⟨h,((h.written [[1,2,3,4,5],[],[6]] (by decide)).2 ?_ _ some 4).trans rfl⟩
  rw [unbuffered_frames]

def hugePrefix : Bytes := leBytes 8 (2^60)++[7]

theorem huge_prefix_strays :
    (readElemBufferedIn addressSpace some hugePrefix (fun _ => 16)
      (newReader (fun _ => 0) 16 (by decide) (by decide))).2 = .stray ∧
    (readElemIn addressSpace some hugePrefix 0).2 = .null ∧
    ¬ ReaderFaithful addressSpace (fun _ => 16) (newReader (fun _ => 0) 16 (by decide) (by decide))
      hugePrefix := by
  have hbuf : (readElemBufferedIn addressSpace some hugePrefix (fun _ => 16)
      (newReader (fun _ => 0) 16 (by decide) (by decide))).2 = .stray := by decide +kernel
  have hun : (readElemIn addressSpace some hugePrefix 0).2 = .null := by decide +kernel
  refine ⟨hbuf,hun,?_⟩
  intro h
  have heq := (h.same Bytes some 1).1
  rw [outcomes_one,outcomes_one,hbuf,hun] at heq
  cases heq

end ArchivalDedup.ElementMemory
