import ArchivalDedup.Library.BufferedStream
import ArchivalDedup.Library.FiniteTable
import ArchivalDedup.Library.LittleEndian

/-!
# Saving and loading tables

Every file is a 32-bit count followed by elements, each with a 64-bit length
in front. Two tables that share their values are saved as three files: the
values in the order in which a walk over both tables first meets them, and each
table with the position of the value in place of the value. The order in which
a hash table is walked is any listing of its entries. All reads and writes are
complete; the buffers are those of the source.
-/

set_option autoImplicit false

namespace ArchivalDedup.Persistence
open ArchivalDedup.FiniteTable ArchivalDedup.BufferedStream ArchivalDedup.LittleEndian

abbrev Bytes := List UInt8

def bufferSize : ℕ := 10485760

theorem bufferSize_pos : 0 < bufferSize := by decide

theorem bufferSize_fits : bufferSize < 2^64 := by decide

def writeElemBuffered (w : Writer UInt8) (b : Bytes) : Writer UInt8 :=
  (w.write bufferSize (leBytes 8 b.length)).write bufferSize b

structure Listing (κ ν : Type) where
  list : Table κ ν → List (Sigma fun _ : κ => ν)
  perm : ∀ t, (list t).Perm t.entries

variable {α κ ν : Type}

def readElemBuffered (decode : Bytes → Option α) (r : Reader UInt8) : Option (α × Reader UInt8) :=
  (r.read bufferSize 8).bind (fun t =>
    (t.2.read bufferSize (leNat t.1)).bind (fun u => (decode u.1).map (fun a => (a,u.2))))

/-- The common shape of the save functions: the count, an `int`, then all
elements, then the flush. -/
def saveAll (saveOne : Writer UInt8 → α → Writer UInt8) (n : ℕ) (xs : List α) : Bytes :=
  (xs.foldl saveOne (Writer.create.write bufferSize (leBytes 4 n))).flush.file

/-- A loop over `int i < n` does not run for a negative `n`. -/
def iterations (n : Bytes) : ℕ := if leNat n < 2^31 then leNat n else 0

/-- The common shape of the load functions: a missing count loads nothing, and
the first element that cannot be read ends the loop. -/
def loadAll (readOne : Reader UInt8 → Option (α × Reader UInt8)) (file : Bytes) : List α :=
  match (Reader.create file).read bufferSize 4 with
  | none => []
  | some (n,r) => readMany readOne (iterations n) r

def gslistSave (encode : α → Bytes) (list : List α) : Bytes :=
  saveAll (fun w a => writeElemBuffered w (encode a)) list.length list

def gslistLoad (decode : Bytes → Option α) (file : Bytes) : List α :=
  loadAll (readElemBuffered decode) file

def saveValuesArray (encodeValue : α → Bytes) (values : List α) : Bytes :=
  saveAll (fun w a => writeElemBuffered w (encodeValue a)) values.length values

def loadValuesArray (decodeValue : Bytes → Option α) (file : Bytes) : List α :=
  loadAll (readElemBuffered decodeValue) file

def saveEntry (encodeKey : κ → Bytes) (encodeVal : ν → Bytes) (w : Writer UInt8)
    (e : Sigma fun _ : κ => ν) : Writer UInt8 :=
  writeElemBuffered (writeElemBuffered w (encodeKey e.1)) (encodeVal e.2)

def ghashSave (order : Listing κ ν) (encodeKey : κ → Bytes) (encodeVal : ν → Bytes)
    (t : Table κ ν) : Bytes :=
  saveAll (saveEntry encodeKey encodeVal) t.entries.length (order.list t)

def readEntry (decodeKey : Bytes → Option κ) (decodeVal : Bytes → Option ν) (r : Reader UInt8) :
    Option ((Sigma fun _ : κ => ν) × Reader UInt8) :=
  (readElemBuffered decodeKey r).bind (fun t =>
    (readElemBuffered decodeVal t.2).map (fun u => (⟨t.1,u.1⟩,u.2)))

def ghashLoad [DecidableEq κ] (decodeKey : Bytes → Option κ) (decodeVal : Bytes → Option ν)
    (file : Bytes) : Table κ ν :=
  fill ∅ (loadAll (readEntry decodeKey decodeVal) file)

def encodeSizeElem (n : ℕ) : Bytes := leBytes 8 n

def decodeSizeElem (data : Bytes) : Option ℕ := if data.length = 8 then some (leNat data) else none

section Indexed

variable [DecidableEq ν]

/-- The positions are kept one higher, so that 0 stands for absence. -/
structure IndexedValues (ν : Type) [DecidableEq ν] where
  valueToIndex : Table ν ℕ
  values : List ν

def getOrCreateValueIndex (s : IndexedValues ν) (value : ν) : IndexedValues ν × ℕ :=
  match (find s.valueToIndex value).getD 0 with
  | idx+1 => (s,idx)
  | 0 => (⟨s.valueToIndex.insert value (s.values.length+1),s.values++[value]⟩,s.values.length)

def collectValueIndex (s : IndexedValues ν) (e : Sigma fun _ : κ => ν) : IndexedValues ν :=
  (getOrCreateValueIndex s e.2).1

def saveIndexedEntry (encodeKey : κ → Bytes) (valueToIndex : Table ν ℕ) (w : Writer UInt8)
    (e : Sigma fun _ : κ => ν) : Writer UInt8 :=
  match (find valueToIndex e.2).getD 0 with
  | 0 => w
  | idx+1 => writeElemBuffered (writeElemBuffered w (encodeKey e.1)) (encodeSizeElem idx)

structure PairFiles where
  table1 : Bytes
  table2 : Bytes
  values : Bytes

variable {κ₁ κ₂ : Type}

/-- The walks of one save: both collections, then both tables. -/
structure SaveOrders (κ₁ κ₂ ν : Type) where
  collect1 : Listing κ₁ ν
  collect2 : Listing κ₂ ν
  save1 : Listing κ₁ ν
  save2 : Listing κ₂ ν

def collectValues (o : SaveOrders κ₁ κ₂ ν) (table1 : Table κ₁ ν) (table2 : Table κ₂ ν) :
    IndexedValues ν :=
  (o.collect2.list table2).foldl collectValueIndex
    ((o.collect1.list table1).foldl collectValueIndex ⟨∅,[]⟩)

def ghashSaveIndexedPair (o : SaveOrders κ₁ κ₂ ν) (encodeKey1 : κ₁ → Bytes)
    (encodeKey2 : κ₂ → Bytes) (encodeValue : ν → Bytes) (table1 : Table κ₁ ν)
    (table2 : Table κ₂ ν) : PairFiles :=
  let s := collectValues o table1 table2
  { values := saveValuesArray encodeValue s.values
    table1 := saveAll (saveIndexedEntry encodeKey1 s.valueToIndex) table1.entries.length
      (o.save1.list table1)
    table2 := saveAll (saveIndexedEntry encodeKey2 s.valueToIndex) table2.entries.length
      (o.save2.list table2) }

end Indexed

/-- A position outside the array drops the entry. -/
def linkEntry [DecidableEq κ] (values : List ν) (t : Table κ ν) (e : Sigma fun _ : κ => ℕ) :
    Table κ ν :=
  match values[e.2]? with
  | none => t
  | some v => t.insert e.1 v

def loadIndexed [DecidableEq κ] (order : Listing κ ℕ) (decodeKey : Bytes → Option κ)
    (values : List ν) (file : Bytes) : Table κ ν :=
  (order.list (ghashLoad decodeKey decodeSizeElem file)).foldl (linkEntry values) ∅

structure LoadOrders (κ₁ κ₂ : Type) where
  load1 : Listing κ₁ ℕ
  load2 : Listing κ₂ ℕ

def ghashLoadIndexedPair {κ₁ κ₂ : Type} [DecidableEq κ₁] [DecidableEq κ₂]
    (o : LoadOrders κ₁ κ₂) (decodeKey1 : Bytes → Option κ₁) (decodeKey2 : Bytes → Option κ₂)
    (values : List ν) (files : PairFiles) : Table κ₁ ν × Table κ₂ ν :=
  (loadIndexed o.load1 decodeKey1 values files.table1,
    loadIndexed o.load2 decodeKey2 values files.table2)

/-! ## Streams -/

def frame (b : Bytes) : Bytes := leBytes 8 b.length++b

theorem stream_writeElem (w : Writer UInt8) (b : Bytes) :
    (writeElemBuffered w b).stream = w.stream++frame b := by
  unfold writeElemBuffered frame
  rw [stream_write _ bufferSize_pos,stream_write _ bufferSize_pos,List.append_assoc]

theorem stream_saveEntry (encodeKey : κ → Bytes) (encodeVal : ν → Bytes) (w : Writer UInt8)
    (e : Sigma fun _ : κ => ν) : (saveEntry encodeKey encodeVal w e).stream =
      w.stream++(frame (encodeKey e.1)++frame (encodeVal e.2)) := by
  unfold saveEntry
  rw [stream_writeElem,stream_writeElem,List.append_assoc]

theorem saveAll_eq {saveOne : Writer UInt8 → α → Writer UInt8} {enc : α → Bytes} (n : ℕ)
    (xs : List α) (h : ∀ w, ∀ x ∈ xs, (saveOne w x).stream = w.stream++enc x) :
    saveAll saveOne n xs = leBytes 4 n++xs.flatMap enc := by
  have hfold : ∀ (ys : List α) (w : Writer UInt8), (∀ x ∈ ys, x ∈ xs) →
      (ys.foldl saveOne w).stream = w.stream++ys.flatMap enc := by
    intro ys
    induction ys with
    | nil =>
      intro w _
      simp
    | cons y ys ih =>
      intro w hy
      rw [List.foldl_cons,ih _ (fun x hx => hy x (by simp [hx])),h w y (hy y (by simp)),
        List.flatMap_cons,List.append_assoc]
  unfold saveAll
  rw [file_flush,hfold xs _ (fun _ hx => hx),stream_write _ bufferSize_pos,stream_create,
    List.nil_append]

def Encodes {γ : Type} (encode : α → Bytes) (decode : Bytes → Option γ) (f : α → γ) (a : α) : Prop :=
  decode (encode a) = some (f a) ∧ (encode a).length < 2^64

variable {γ : Type}

theorem readElem_recovers {encode : α → Bytes} {decode : Bytes → Option γ} {f : α → γ} {a : α}
    (h : Encodes encode decode f a) :
    Recovers (readElemBuffered decode) (fun x => frame (encode x)) f a := by
  intro r tail hs
  obtain ⟨r₁,h₁,s₁⟩ := stream_read bufferSize bufferSize_pos r (leBytes 8 (encode a).length)
    (encode a++tail) (by rw [hs]; simp only [frame,List.append_assoc])
  obtain ⟨r₂,h₂,s₂⟩ := stream_read bufferSize bufferSize_pos r₁ (encode a) tail s₁
  refine ⟨r₂,?_,s₂⟩
  rw [leBytes_length] at h₁
  have hlen : leNat (leBytes 8 (encode a).length) = (encode a).length :=
    leNat_leBytes_of_lt (Nat.lt_of_lt_of_eq h.2 (by decide))
  simp only [readElemBuffered,h₁,Option.bind_some,hlen,h₂,h.1,Option.map_some]

def withValue (f : ν → γ) (e : Sigma fun _ : κ => ν) : Sigma fun _ : κ => γ := ⟨e.1,f e.2⟩

theorem readEntry_recovers {encodeKey : κ → Bytes} {decodeKey : Bytes → Option κ}
    {encodeVal : ν → Bytes} {decodeVal : Bytes → Option γ} {f : ν → γ} {e : Sigma fun _ : κ => ν}
    (hk : Encodes encodeKey decodeKey id e.1) (hv : Encodes encodeVal decodeVal f e.2) :
    Recovers (readEntry decodeKey decodeVal)
      (fun x : Sigma fun _ : κ => ν => frame (encodeKey x.1)++frame (encodeVal x.2))
      (withValue f) e := by
  intro r tail hs
  obtain ⟨r₁,h₁,s₁⟩ := readElem_recovers hk r (frame (encodeVal e.2)++tail)
    (by rw [hs,List.append_assoc])
  obtain ⟨r₂,h₂,s₂⟩ := readElem_recovers hv r₁ tail s₁
  exact ⟨r₂,by simp [readEntry,withValue,h₁,h₂],s₂⟩

def restored (n : ℕ) : ℕ := iterations (leBytes 4 n)

theorem restored_le (n : ℕ) : restored n ≤ n := by
  unfold restored iterations
  rw [leNat_leBytes]
  split_ifs
  · exact Nat.mod_le ..
  · exact Nat.zero_le n

theorem restored_eq {n : ℕ} (h : n < 2^31) : restored n = n := by
  unfold restored iterations
  rw [leNat_leBytes_of_lt (by omega),if_pos h]

theorem restored_overflow {n : ℕ} (h : 2^31 ≤ n) (h' : n < 2^32) : restored n = 0 := by
  unfold restored iterations
  rw [leNat_leBytes_of_lt (by omega),if_neg (Nat.not_lt.mpr h)]

theorem loadAll_loop {saveOne : Writer UInt8 → α → Writer UInt8} {enc : α → Bytes}
    (readOne : Reader UInt8 → Option (γ × Reader UInt8)) (xs : List α)
    (hs : ∀ w, ∀ x ∈ xs, (saveOne w x).stream = w.stream++enc x) (n : ℕ) :
    ∃ r : Reader UInt8, r.stream = xs.flatMap enc ∧
      loadAll readOne (saveAll saveOne n xs) = readMany readOne (restored n) r := by
  obtain ⟨r,hr,ht⟩ := stream_read bufferSize bufferSize_pos
    (Reader.create (leBytes 4 n++xs.flatMap enc)) (leBytes 4 n) (xs.flatMap enc) rfl
  rw [leBytes_length] at hr
  refine ⟨r,ht,?_⟩
  rw [saveAll_eq n xs hs]
  unfold loadAll
  rw [hr]
  rfl

/-- What a load brings back of a file that a save wrote. -/
theorem loadAll_saveAll {saveOne : Writer UInt8 → α → Writer UInt8}
    {readOne : Reader UInt8 → Option (γ × Reader UInt8)} {enc : α → Bytes} {f : α → γ}
    (xs : List α) (hs : ∀ w, ∀ x ∈ xs, (saveOne w x).stream = w.stream++enc x)
    (hx : ∀ x ∈ xs, Recovers readOne enc f x) (n : ℕ) (hn : n = xs.length) :
    loadAll readOne (saveAll saveOne n xs) = (xs.map f).take (restored n) := by
  obtain ⟨r,ht,hload⟩ := loadAll_loop readOne xs hs n
  rw [hload]
  exact readMany_recovers xs hx _ (hn ▸ restored_le n) r [] (by rw [ht,List.append_nil])

theorem gslist_reload {encode : α → Bytes} {decode : Bytes → Option α} (list : List α)
    (h : ∀ a ∈ list, Encodes encode decode id a) :
    gslistLoad decode (gslistSave encode list) = list.take (restored list.length) := by
  have := loadAll_saveAll list (fun w x _ => stream_writeElem w (encode x))
    (fun a ha => readElem_recovers (h a ha)) list.length rfl
  rwa [List.map_id] at this

theorem values_reload {encode : α → Bytes} {decode : Bytes → Option γ} {f : α → γ}
    (values : List α) (h : ∀ a ∈ values, Encodes encode decode f a) :
    loadValuesArray decode (saveValuesArray encode values) =
      (values.map f).take (restored values.length) :=
  loadAll_saveAll values (fun w x _ => stream_writeElem w (encode x))
    (fun a ha => readElem_recovers (h a ha)) values.length rfl

theorem ghash_reload [DecidableEq κ] {encodeKey : κ → Bytes} {decodeKey : Bytes → Option κ}
    {encodeVal : ν → Bytes} {decodeVal : Bytes → Option ν} (order : Listing κ ν) (t : Table κ ν)
    (hn : t.entries.length < 2^31)
    (h : ∀ k x, find t k = some x →
      Encodes encodeKey decodeKey id k ∧ Encodes encodeVal decodeVal id x) (k : κ) :
    find (ghashLoad decodeKey decodeVal (ghashSave order encodeKey encodeVal t)) k = find t k := by
  have hp := order.perm t
  have hrec : ∀ e ∈ order.list t, Recovers (readEntry decodeKey decodeVal)
      (fun x : Sigma fun _ : κ => ν => frame (encodeKey x.1)++frame (encodeVal x.2))
      (withValue id) e := by
    intro e he
    have := h e.1 e.2 ((mem_entries_iff t e.1 e.2).mp (hp.mem_iff.mp he))
    exact readEntry_recovers this.1 this.2
  have hload := loadAll_saveAll (order.list t)
    (fun w x _ => stream_saveEntry encodeKey encodeVal w x) hrec t.entries.length hp.length_eq.symm
  have htake : ((order.list t).map (withValue id)).take (restored t.entries.length) =
      order.list t := by
    have hid : (withValue id : (Sigma fun _ : κ => ν) → _) = id := rfl
    rw [restored_eq hn,←hp.length_eq,hid,List.map_id,List.take_length]
  unfold ghashLoad ghashSave
  rw [hload,htake]
  exact find_fill_perm t _ hp k

/-! ## Shared values -/

section Shared

variable [DecidableEq ν]

/-- The table of positions and the array say the same. -/
def Collected (s : IndexedValues ν) : Prop :=
  ∀ a i, find s.valueToIndex a = some i ↔ ∃ j, i = j+1 ∧ s.values[j]? = some a

theorem collected_start : Collected (⟨∅,[]⟩ : IndexedValues ν) := by
  intro a i
  simp

theorem getOrCreate_known {s : IndexedValues ν} (h : Collected s) {a : ν} (ha : a ∈ s.values) :
    (getOrCreateValueIndex s a).1 = s := by
  obtain ⟨j,hj⟩ := List.mem_iff_getElem?.mp ha
  have hf : find s.valueToIndex a = some (j+1) := (h a (j+1)).mpr ⟨j,rfl,hj⟩
  simp [getOrCreateValueIndex,hf]

theorem getOrCreate_new {s : IndexedValues ν} (h : Collected s) {a : ν} (ha : a ∉ s.values) :
    (getOrCreateValueIndex s a).1 =
      ⟨s.valueToIndex.insert a (s.values.length+1),s.values++[a]⟩ := by
  have hf : find s.valueToIndex a = none := by
    cases hx : find s.valueToIndex a with
    | none => rfl
    | some i =>
      obtain ⟨j,_,hj⟩ := (h a i).mp hx
      exact absurd (List.mem_of_getElem? hj) ha
  simp [getOrCreateValueIndex,hf]

theorem collected_step {s : IndexedValues ν} (h : Collected s) (a : ν) :
    Collected (getOrCreateValueIndex s a).1 ∧
      ∀ b, b ∈ (getOrCreateValueIndex s a).1.values ↔ b ∈ s.values ∨ b = a := by
  by_cases ha : a ∈ s.values
  · rw [getOrCreate_known h ha]
    refine ⟨h,?_⟩
    intro b
    constructor
    · exact Or.inl
    · rintro (hb | rfl)
      · exact hb
      · exact ha
  · rw [getOrCreate_new h ha]
    refine ⟨?_,by simp⟩
    intro b i
    rw [find_insert]
    by_cases hb : b = a
    · subst hb
      rw [if_pos rfl,Option.some.injEq]
      constructor
      · rintro rfl
        exact ⟨s.values.length,rfl,by simp⟩
      · rintro ⟨j,rfl,hj⟩
        rcases Nat.lt_trichotomy j s.values.length with hlt | rfl | hgt
        · rw [List.getElem?_append_left hlt] at hj
          exact absurd (List.mem_of_getElem? hj) ha
        · rfl
        · rw [List.getElem?_eq_none (by simp; omega)] at hj
          cases hj
    · rw [if_neg hb,h b i]
      refine exists_congr ?_
      intro j
      refine and_congr_right ?_
      intro _
      rcases Nat.lt_trichotomy j s.values.length with hlt | rfl | hgt
      · rw [List.getElem?_append_left hlt]
      · simp [Ne.symm hb]
      · rw [List.getElem?_eq_none (by omega),List.getElem?_eq_none (by simp; omega)]

theorem collected_fold (l : List (Sigma fun _ : κ => ν)) {s : IndexedValues ν} (h : Collected s) :
    Collected (l.foldl collectValueIndex s) ∧
      ∀ b, b ∈ (l.foldl collectValueIndex s).values ↔ b ∈ s.values ∨ ∃ e ∈ l, e.2 = b := by
  induction l generalizing s with
  | nil => exact ⟨h,by simp⟩
  | cons e l ih =>
    obtain ⟨h₁,m₁⟩ := collected_step h e.2
    obtain ⟨h₂,m₂⟩ := ih h₁
    refine ⟨h₂,?_⟩
    intro b
    refine (m₂ b).trans ?_
    rw [m₁]
    simp only [List.mem_cons,exists_eq_or_imp]
    constructor
    · rintro ((hb | rfl) | hb)
      · exact Or.inl hb
      · exact Or.inr (Or.inl rfl)
      · exact Or.inr (Or.inr hb)
    · rintro (hb | rfl | hb)
      · exact Or.inl (Or.inl hb)
      · exact Or.inl (Or.inr rfl)
      · exact Or.inr hb

theorem collected_nodup {s : IndexedValues ν} (h : Collected s) : s.values.Nodup := by
  rw [List.nodup_iff_getElem?_ne_getElem?]
  intro i j hij hj heq
  have hi : s.values[i]? = some s.values[j] := by rw [heq,List.getElem?_eq_getElem hj]
  have h₁ := (h s.values[j] (i+1)).mpr ⟨i,rfl,hi⟩
  have h₂ := (h s.values[j] (j+1)).mpr ⟨j,rfl,List.getElem?_eq_getElem hj⟩
  have := Option.some.inj (h₁.symm.trans h₂)
  omega

variable {κ₁ κ₂ : Type} [DecidableEq κ₁] [DecidableEq κ₂]

theorem collectValues_spec (o : SaveOrders κ₁ κ₂ ν) (t₁ : Table κ₁ ν) (t₂ : Table κ₂ ν) :
    Collected (collectValues o t₁ t₂) ∧ ∀ b, b ∈ (collectValues o t₁ t₂).values ↔
      (∃ k, find t₁ k = some b) ∨ ∃ k, find t₂ k = some b := by
  obtain ⟨h₁,m₁⟩ := collected_fold (o.collect1.list t₁) collected_start
  obtain ⟨h₂,m₂⟩ := collected_fold (o.collect2.list t₂) h₁
  refine ⟨h₂,?_⟩
  intro b
  have e₁ : (∃ e ∈ o.collect1.list t₁, e.2 = b) ↔ ∃ k, find t₁ k = some b := by
    constructor
    · rintro ⟨⟨k,x⟩,he,rfl⟩
      exact ⟨k,(mem_entries_iff t₁ k x).mp ((o.collect1.perm t₁).mem_iff.mp he)⟩
    · rintro ⟨k,hk⟩
      exact ⟨⟨k,b⟩,(o.collect1.perm t₁).mem_iff.mpr ((mem_entries_iff t₁ k b).mpr hk),rfl⟩
  have e₂ : (∃ e ∈ o.collect2.list t₂, e.2 = b) ↔ ∃ k, find t₂ k = some b := by
    constructor
    · rintro ⟨⟨k,x⟩,he,rfl⟩
      exact ⟨k,(mem_entries_iff t₂ k x).mp ((o.collect2.perm t₂).mem_iff.mp he)⟩
    · rintro ⟨k,hk⟩
      exact ⟨⟨k,b⟩,(o.collect2.perm t₂).mem_iff.mpr ((mem_entries_iff t₂ k b).mpr hk),rfl⟩
  exact (m₂ b).trans (by rw [m₁ b,e₁,e₂]; simp)

theorem position_find {s : IndexedValues ν} (h : Collected s) {a : ν} (ha : a ∈ s.values) :
    find s.valueToIndex a = some (s.values.idxOf a+1) :=
  (h a _).mpr ⟨_,rfl,List.getElem?_idxOf ha⟩

theorem stream_saveIndexedEntry {s : IndexedValues ν} (h : Collected s) (encodeKey : κ → Bytes)
    (w : Writer UInt8) (e : Sigma fun _ : κ => ν) (he : e.2 ∈ s.values) :
    (saveIndexedEntry encodeKey s.valueToIndex w e).stream =
      w.stream++(frame (encodeKey e.1)++frame (encodeSizeElem (s.values.idxOf e.2))) := by
  unfold saveIndexedEntry
  rw [position_find h he,Option.getD_some]
  exact stream_saveEntry encodeKey (fun a => encodeSizeElem (s.values.idxOf a)) w e

end Shared

section Link

variable [DecidableEq κ]

def linked (values : List ν) (e : Sigma fun _ : κ => ℕ) : Option (Sigma fun _ : κ => ν) :=
  values[e.2]?.map (fun v => ⟨e.1,v⟩)

theorem link_fill (values : List ν) (t : Table κ ν) (l : List (Sigma fun _ : κ => ℕ)) :
    l.foldl (linkEntry values) t = fill t (l.filterMap (linked values)) := by
  induction l generalizing t with
  | nil => rfl
  | cons e l ih =>
    rw [List.foldl_cons,ih]
    unfold linkEntry
    cases hv : values[e.2]? with
    | none => rw [List.filterMap_cons_none (by simp [linked,hv])]
    | some v =>
      rw [List.filterMap_cons_some (b := ⟨e.1,v⟩) (by simp [linked,hv])]
      rfl

omit [DecidableEq κ] in
theorem linked_keys_nodup (values : List ν) (l : List (Sigma fun _ : κ => ℕ))
    (hl : (l.map Sigma.fst).Nodup) : ((l.filterMap (linked values)).map Sigma.fst).Nodup := by
  refine hl.sublist ?_
  induction l with
  | nil => exact List.Sublist.refl _
  | cons e l ih =>
    rw [List.map_cons,List.nodup_cons] at hl
    cases hv : values[e.2]? with
    | none =>
      rw [List.filterMap_cons_none (by simp [linked,hv])]
      exact (ih hl.2).cons e.1
    | some v =>
      rw [List.filterMap_cons_some (b := ⟨e.1,v⟩) (by simp [linked,hv])]
      exact (ih hl.2).cons_cons e.1

theorem find_loadIndexed (order : Listing κ ℕ) (decodeKey : Bytes → Option κ) (values : List ν)
    (file : Bytes) (k : κ) : find (loadIndexed order decodeKey values file) k =
      (find (ghashLoad decodeKey decodeSizeElem file) k).bind (fun i => values[i]?) := by
  have hp := order.perm (ghashLoad decodeKey decodeSizeElem file)
  have hn : ((order.list (ghashLoad decodeKey decodeSizeElem file)).map Sigma.fst).Nodup :=
    (hp.map Sigma.fst).nodup_iff.mpr (AList.nodupKeys _)
  apply Option.ext
  intro v
  unfold loadIndexed
  rw [link_fill,find_fill _ (linked_keys_nodup values _ hn),List.mem_filterMap,
    Option.bind_eq_some_iff]
  constructor
  · rintro ⟨⟨j,i⟩,he,hl⟩
    obtain ⟨w,hw,heq⟩ := Option.map_eq_some_iff.mp hl
    cases heq
    exact ⟨i,(mem_entries_iff _ j i).mp (hp.mem_iff.mp he),hw⟩
  · rintro ⟨i,hi,hv⟩
    refine ⟨⟨k,i⟩,hp.mem_iff.mpr ((mem_entries_iff _ k i).mpr hi),?_⟩
    simp [linked,hv]

theorem decodeSizeElem_encode {n : ℕ} (h : n < 2^64) :
    decodeSizeElem (encodeSizeElem n) = some n := by
  unfold decodeSizeElem encodeSizeElem
  rw [if_pos (leBytes_length 8 n),leNat_leBytes_of_lt (Nat.lt_of_lt_of_eq h (by decide))]

theorem indexed_reload {μ : Type} [DecidableEq ν] {s : IndexedValues ν} (hs : Collected s)
    (hlen : s.values.length < 2^31) {encodeKey : κ → Bytes} {decodeKey : Bytes → Option κ}
    (order : Listing κ ℕ) (save : Listing κ ν) (t : Table κ ν) (hn : t.entries.length < 2^31)
    (hk : ∀ k x, find t k = some x → Encodes encodeKey decodeKey id k ∧ x ∈ s.values)
    (values : List μ) (k : κ) :
    find (loadIndexed order decodeKey values
      (saveAll (saveIndexedEntry encodeKey s.valueToIndex) t.entries.length (save.list t))) k =
      (find t k).bind (fun a => values[s.values.idxOf a]?) := by
  have hp := save.perm t
  have hmem : ∀ e ∈ save.list t, Encodes encodeKey decodeKey id e.1 ∧ e.2 ∈ s.values :=
    fun e he => hk e.1 e.2 ((mem_entries_iff t e.1 e.2).mp (hp.mem_iff.mp he))
  have hrec : ∀ e ∈ save.list t, Recovers (readEntry decodeKey decodeSizeElem)
      (fun x : Sigma fun _ : κ => ν =>
        frame (encodeKey x.1)++frame (encodeSizeElem (s.values.idxOf x.2)))
      (withValue s.values.idxOf) e := by
    intro e he
    have hlt := List.idxOf_lt_length_of_mem (hmem e he).2
    have hv : Encodes (fun a => encodeSizeElem (s.values.idxOf a)) decodeSizeElem
        s.values.idxOf e.2 := by
      refine ⟨decodeSizeElem_encode (by omega),?_⟩
      simp only [encodeSizeElem,leBytes_length]
      decide
    exact readEntry_recovers (hmem e he).1 hv
  have hload := loadAll_saveAll (save.list t)
    (fun w e he => stream_saveIndexedEntry hs encodeKey w e (hmem e he).2) hrec
    t.entries.length hp.length_eq.symm
  have htake : ((save.list t).map (withValue s.values.idxOf)).take (restored t.entries.length) =
      (save.list t).map (withValue s.values.idxOf) := by
    rw [restored_eq hn,←hp.length_eq]
    exact List.take_of_length_le (by simp)
  have hkeys : (((save.list t).map (withValue s.values.idxOf)).map Sigma.fst).Nodup := by
    rw [List.map_map]
    exact (hp.map Sigma.fst).nodup_iff.mpr t.nodupKeys
  have hidx : find (ghashLoad decodeKey decodeSizeElem
      (saveAll (saveIndexedEntry encodeKey s.valueToIndex) t.entries.length (save.list t))) k =
      (find t k).map s.values.idxOf := by
    unfold ghashLoad
    rw [hload,htake]
    apply Option.ext
    intro i
    rw [find_fill _ hkeys,List.mem_map,Option.map_eq_some_iff]
    constructor
    · rintro ⟨⟨j,a⟩,he,heq⟩
      cases heq
      exact ⟨a,(mem_entries_iff t j a).mp (hp.mem_iff.mp he),rfl⟩
    · rintro ⟨a,ha,rfl⟩
      exact ⟨⟨k,a⟩,hp.mem_iff.mpr ((mem_entries_iff t k a).mpr ha),rfl⟩
  rw [find_loadIndexed,hidx]
  cases find t k <;> rfl

theorem indexed_lost {μ : Type} [DecidableEq ν] {s : IndexedValues ν} (hs : Collected s)
    {encodeKey : κ → Bytes} {decodeKey : Bytes → Option κ} (order : Listing κ ℕ)
    (save : Listing κ ν) (t : Table κ ν) (hn : 2^31 ≤ t.entries.length)
    (hn' : t.entries.length < 2^32) (hk : ∀ k x, find t k = some x → x ∈ s.values)
    (values : List μ) (k : κ) :
    find (loadIndexed order decodeKey values
      (saveAll (saveIndexedEntry encodeKey s.valueToIndex) t.entries.length (save.list t))) k =
      none := by
  have hp := save.perm t
  obtain ⟨r,_,hload⟩ := loadAll_loop (readEntry decodeKey decodeSizeElem) (save.list t)
    (fun w e he => stream_saveIndexedEntry hs encodeKey w e
      (hk e.1 e.2 ((mem_entries_iff t e.1 e.2).mp (hp.mem_iff.mp he)))) t.entries.length
  rw [restored_overflow hn hn'] at hload
  rw [find_loadIndexed,ghashLoad,hload]
  rfl

end Link

end ArchivalDedup.Persistence
