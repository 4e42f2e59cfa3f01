import Mathlib.Data.List.TakeWhile
import ArchivalDedup.Passthrough
import ArchivalDedup.Persistence

/-!
# Unmount and mount

`index_destroy` writes the index to five files, `index_init` reads them in a
new process, whose heap is empty, and `xmp_init` takes the append counter from
the length of the master file. The addresses of the loaded objects are whatever
`malloc` returns.
-/

set_option autoImplicit false

namespace ArchivalDedup.Remount
open ArchivalDedup.FiniteTable ArchivalDedup.LittleEndian ArchivalDedup.MetaIndex
open ArchivalDedup.Persistence ArchivalDedup.Passthrough

/-- The struct as it stands in memory; the last four bytes are padding. -/
def encodeMasterInfo (pad : ℕ) (m : MasterInfo) : Bytes :=
  m.hash.bytes++(leBytes 8 m.masterBlockIndex++(leBytes 4 m.refcount++leBytes 4 pad))

def decodeMasterInfo (data : Bytes) : Option MasterInfo :=
  if h : data.length = 80 then
    some ⟨⟨data.take hashSize,by rw [List.length_take,h]; rfl⟩,
      leNat ((data.drop hashSize).take 8),leNat ((data.drop (hashSize+8)).take 4)⟩
  else none

def encodeHash (h : Hash) : Bytes := h.bytes

def decodeHash (data : Bytes) : Option Hash :=
  if h : data.length = hashSize then some ⟨data,h⟩ else none

/-- A C string ends at its first zero byte. -/
def cString (data : Bytes) : Option Path :=
  if h : (data.takeWhile (· != 0)).length+13 < 2^31 then
    some ⟨data.takeWhile (· != 0),fun hz => by
      simpa using List.mem_takeWhile_imp hz,h⟩
  else none

def encodeBlockIndice (b : BlockIndice) : Bytes :=
  leBytes 4 (b.path.chars.length+1)++((b.path.chars++[0])++leBytes 8 b.offset)

def decodeBlockIndice (data : Bytes) : Option BlockIndice :=
  let pathLen := leNat (data.take 4)
  (cString ((data.drop 4).take pathLen)).map
    (fun path => ⟨path,leNat ((data.drop (4+pathLen)).take 8)⟩)

def encodeFreeBlock (slot : ℕ) : Bytes := leBytes 8 slot

def decodeFreeBlock (data : Bytes) : Option ℕ := if data.length = 8 then some (leNat data) else none

def encodeSize (size : ℕ) : Bytes := leBytes 8 size

def decodeSize (data : Bytes) : Option ℕ := some (leNat (data.take 8))

def encodeStr (path : Path) : Bytes := path.chars++[0]

def decodeStr (data : Bytes) : Option Path := cString data

structure IndexFiles where
  pair : PairFiles
  fileToSizes : Bytes
  freeBlockList : Bytes

/-- What the code leaves open in `index_destroy`: the order of each walk and
the padding of each object. -/
structure Unmounting where
  pair : SaveOrders Hash BlockIndice Ptr
  sizes : Listing Path ℕ
  pad : Ptr → ℕ

def indexDestroy (u : Unmounting) (c : Context) : IndexFiles where
  pair := ghashSaveIndexedPair u.pair encodeHash encodeBlockIndice
    (fun a => encodeMasterInfo (u.pad a) (c.cell a)) c.hashToMaster c.fileToMaster
  fileToSizes := ghashSave u.sizes encodeStr encodeSize c.fileToSizes
  freeBlockList := gslistSave encodeFreeBlock c.freeBlockList

/-- What the code leaves open in `index_init`: the order of the walks over the
tables of positions, and the addresses. -/
structure Mounting where
  pair : LoadOrders Hash BlockIndice
  alloc : Finset Ptr → Ptr
  alloc_fresh : ∀ s, alloc s ∉ s

def emptyHeap : Heap := ⟨fun _ => default,∅⟩

def mallocAll (alloc : Finset Ptr → Ptr) : List MasterInfo → Heap → List Ptr × Heap
  | [], h => ([],h)
  | m::ms, h =>
    let t := mallocAll alloc ms
      ⟨Function.update h.cell (alloc h.live) m,insert (alloc h.live) h.live⟩
    (alloc h.live::t.1,t.2)

def indexInit (i : Mounting) (f : IndexFiles) : Index × Heap :=
  let values := mallocAll i.alloc (loadValuesArray decodeMasterInfo f.pair.values) emptyHeap
  let tables := ghashLoadIndexedPair i.pair decodeHash decodeBlockIndice values.1 f.pair
  ({ hashToMaster := tables.1
     fileToMaster := tables.2
     fileToSizes := ghashLoad decodeStr decodeSize f.fileToSizes
     freeBlockList := gslistLoad decodeFreeBlock f.freeBlockList },values.2)

def xmpInit (i : Mounting) (f : IndexFiles) (file : MasterFile) : Context where
  toIndex := (indexInit i f).1
  toHeap := (indexInit i f).2
  toMasterFile := file
  nextBlockIndex := file.fileSize/blockSize

def remount (u : Unmounting) (i : Mounting) (c : Context) : Context :=
  xmpInit i (indexDestroy u c) c.toMasterFile

/-! ## Codecs -/

theorem encodes_masterInfo (pad : Ptr → ℕ) (cell : Ptr → MasterInfo) (a : Ptr)
    (hm : (cell a).masterBlockIndex < 2^64) (hr : (cell a).refcount < 2^32) :
    Encodes (fun a => encodeMasterInfo (pad a) (cell a)) decodeMasterInfo cell a := by
  have hl : (encodeMasterInfo (pad a) (cell a)).length = 80 := by
    simp [encodeMasterInfo,(cell a).hash.length_bytes,hashSize]
  have h₁ : (encodeMasterInfo (pad a) (cell a)).take hashSize = (cell a).hash.bytes :=
    List.take_left' (cell a).hash.length_bytes
  have h₂ : ((encodeMasterInfo (pad a) (cell a)).drop hashSize).take 8 =
      leBytes 8 (cell a).masterBlockIndex := by
    unfold encodeMasterInfo
    rw [List.drop_left' (cell a).hash.length_bytes,List.take_left' (leBytes_length 8 _)]
  have h₃ : ((encodeMasterInfo (pad a) (cell a)).drop (hashSize+8)).take 4 =
      leBytes 4 (cell a).refcount := by
    unfold encodeMasterInfo
    rw [←List.append_assoc,List.drop_left' (by
      rw [List.length_append,(cell a).hash.length_bytes,leBytes_length]),
      List.take_left' (leBytes_length 4 _)]
  refine ⟨?_,by simp only [hl]; decide⟩
  simp only [decodeMasterInfo,dif_pos hl,Option.some.injEq,h₁,h₂,h₃]
  rw [leNat_leBytes_of_lt (Nat.lt_of_lt_of_eq hm (by decide)),
    leNat_leBytes_of_lt (Nat.lt_of_lt_of_eq hr (by decide))]

theorem encodes_hash (h : Hash) : Encodes encodeHash decodeHash id h := by
  refine ⟨dif_pos h.length_bytes,?_⟩
  rw [encodeHash,h.length_bytes]
  decide

theorem cString_chars (path : Path) (tail : Bytes) : cString (path.chars++0::tail) = some path := by
  have hw : (path.chars++0::tail).takeWhile (· != 0) = path.chars := by
    rw [List.takeWhile_append_of_pos]
    · simp
    · intro b hb
      simp only [bne_iff_ne]
      exact fun hz => path.noNul (hz ▸ hb)
  unfold cString
  simp only [hw]
  rw [dif_pos path.fits]

theorem encodes_str (path : Path) : Encodes encodeStr decodeStr id path := by
  have := path.fits
  refine ⟨cString_chars path [],?_⟩
  simp only [encodeStr,List.length_append,List.length_singleton]
  omega

theorem encodes_blockIndice (b : BlockIndice) (h : b.offset < 2^64) :
    Encodes encodeBlockIndice decodeBlockIndice id b := by
  have hfit := b.path.fits
  have hlen : leNat ((encodeBlockIndice b).take 4) = b.path.chars.length+1 := by
    unfold encodeBlockIndice
    rw [List.take_left' (leBytes_length 4 _),leNat_leBytes_of_lt (by omega)]
  have hdrop : (encodeBlockIndice b).drop 4 = (b.path.chars++[0])++leBytes 8 b.offset :=
    List.drop_left' (leBytes_length 4 _)
  have hpath : ((encodeBlockIndice b).drop 4).take (b.path.chars.length+1) = b.path.chars++[0] := by
    rw [hdrop,List.take_left' (by simp)]
  have hoff : (encodeBlockIndice b).drop (4+(b.path.chars.length+1)) = leBytes 8 b.offset := by
    rw [←List.drop_drop,hdrop,List.drop_left' (by simp)]
  refine ⟨?_,?_⟩
  · simp only [decodeBlockIndice,hlen,hpath,hoff,cString_chars b.path [],Option.map_some]
    rw [List.take_of_length_le (by simp),
      leNat_leBytes_of_lt (Nat.lt_of_lt_of_eq h (by decide))]
    rfl
  · simp only [encodeBlockIndice,List.length_append,leBytes_length,List.length_singleton]
    omega

theorem encodes_freeBlock (slot : ℕ) (h : slot < 2^64) :
    Encodes encodeFreeBlock decodeFreeBlock id slot := by
  constructor
  · unfold decodeFreeBlock encodeFreeBlock
    rw [if_pos (leBytes_length 8 slot),leNat_leBytes_of_lt (Nat.lt_of_lt_of_eq h (by decide))]
    rfl
  · rw [encodeFreeBlock,leBytes_length]
    decide

theorem encodes_size (size : ℕ) (h : size < 2^64) : Encodes encodeSize decodeSize id size := by
  constructor
  · unfold decodeSize encodeSize
    rw [List.take_of_length_le (by simp),leNat_leBytes_of_lt (Nat.lt_of_lt_of_eq h (by decide))]
    rfl
  · rw [encodeSize,leBytes_length]
    decide

/-! ## Objects -/

theorem mallocAll_spec {alloc : Finset Ptr → Ptr} (hf : ∀ s, alloc s ∉ s) (ms : List MasterInfo)
    (h : Heap) : (mallocAll alloc ms h).1.length = ms.length ∧ (mallocAll alloc ms h).1.Nodup ∧
      (∀ a ∈ (mallocAll alloc ms h).1, a ∉ h.live) ∧
      (∀ a, a ∈ (mallocAll alloc ms h).2.live ↔ a ∈ h.live ∨ a ∈ (mallocAll alloc ms h).1) ∧
      (∀ a ∉ (mallocAll alloc ms h).1, (mallocAll alloc ms h).2.cell a = h.cell a) ∧
      ∀ (i : ℕ) (a : Ptr), (mallocAll alloc ms h).1[i]? = some a →
        ms[i]? = some ((mallocAll alloc ms h).2.cell a) := by
  induction ms generalizing h with
  | nil => exact ⟨rfl,List.nodup_nil,by simp [mallocAll],by simp [mallocAll],by simp [mallocAll],
      by simp [mallocAll]⟩
  | cons m ms ih =>
    set a := alloc h.live with ha
    set h' : Heap := ⟨Function.update h.cell a m,insert a h.live⟩ with hh
    obtain ⟨h₁,h₂,h₃,h₄,h₅,h₆⟩ := ih h'
    have hstep : mallocAll alloc (m::ms) h = (a::(mallocAll alloc ms h').1,(mallocAll alloc ms h').2) :=
      rfl
    have hnew : a ∉ (mallocAll alloc ms h').1 := fun hm => h₃ a hm (Finset.mem_insert_self ..)
    rw [hstep]
    refine ⟨by simp [h₁],List.nodup_cons.mpr ⟨hnew,h₂⟩,?_,?_,?_,?_⟩
    · intro b hb
      rcases List.mem_cons.mp hb with rfl | hb
      · exact hf h.live
      · exact fun hl => h₃ b hb (Finset.mem_insert_of_mem hl)
    · intro b
      rw [h₄ b]
      simp only [hh,Finset.mem_insert,List.mem_cons]
      constructor
      · rintro ((hb | hb) | hb)
        · exact Or.inr (Or.inl hb)
        · exact Or.inl hb
        · exact Or.inr (Or.inr hb)
      · rintro (hb | hb | hb)
        · exact Or.inl (Or.inr hb)
        · exact Or.inl (Or.inl hb)
        · exact Or.inr hb
    · intro b hb
      rw [List.mem_cons,not_or] at hb
      rw [h₅ b hb.2]
      exact Function.update_of_ne hb.1 ..
    · intro i b hb
      cases i with
      | zero =>
        have hb' : a = b := by simpa using hb
        subst hb'
        rw [h₅ a hnew]
        simp [hh]
      | succ i => exact h₆ i b (by simpa using hb)

/-! ## The reloaded index -/

/-- Some key of one of the two tables points to the object. -/
def Held (c : Context) (a : Ptr) : Prop :=
  (∃ h, find c.hashToMaster h = some a) ∨ ∃ k, find c.fileToMaster k = some a

/-- Every number that is saved fits the C type it is saved as. -/
structure InRange (c : Context) : Prop where
  infos : ∀ a, Held c a → (c.cell a).masterBlockIndex < 2^64 ∧ (c.cell a).refcount < 2^32
  offsets : ∀ k a, find c.fileToMaster k = some a → k.offset < 2^64
  sizes : ∀ p n, find c.fileToSizes p = some n → n < 2^64
  free : ∀ q ∈ c.freeBlockList, q < 2^64

/-- The counts fit the `int` in front of each file. -/
structure SmallTables (u : Unmounting) (c : Context) : Prop where
  hashToMaster : c.hashToMaster.entries.length < 2^31
  fileToMaster : c.fileToMaster.entries.length < 2^31
  shared : (collectValues u.pair c.hashToMaster c.fileToMaster).values.length < 2^31
  fileToSizes : c.fileToSizes.entries.length < 2^31
  freeBlockList : c.freeBlockList.length < 2^31

instance (u : Unmounting) (c : Context) : Decidable (SmallTables u c) :=
  decidable_of_iff (c.hashToMaster.entries.length < 2^31 ∧ c.fileToMaster.entries.length < 2^31 ∧
      (collectValues u.pair c.hashToMaster c.fileToMaster).values.length < 2^31 ∧
      c.fileToSizes.entries.length < 2^31 ∧ c.freeBlockList.length < 2^31)
    ⟨fun ⟨h₁,h₂,h₃,h₄,h₅⟩ => ⟨h₁,h₂,h₃,h₄,h₅⟩,fun ⟨h₁,h₂,h₃,h₄,h₅⟩ => ⟨h₁,h₂,h₃,h₄,h₅⟩⟩

/-- `d` is `c` with every object moved. -/
structure Renamed (ρ : Ptr → Ptr) (c d : Context) : Prop where
  hashToMaster : ∀ h, find d.hashToMaster h = (find c.hashToMaster h).map ρ
  fileToMaster : ∀ k, find d.fileToMaster k = (find c.fileToMaster k).map ρ
  fileToSizes : ∀ p, find d.fileToSizes p = find c.fileToSizes p
  freeBlockList : d.freeBlockList = c.freeBlockList
  infos : ∀ a, Held c a → d.cell (ρ a) = c.cell a
  injective : ∀ a b, Held c a → Held c b → ρ a = ρ b → a = b
  live : ∀ x, x ∈ d.live ↔ ∃ a, Held c a ∧ ρ a = x
  blank : ∀ x, x ∉ d.live → d.cell x = default

variable {c : Context} (u : Unmounting) (i : Mounting)

def savedValues (c : Context) : List Ptr := (collectValues u.pair c.hashToMaster c.fileToMaster).values

theorem mem_savedValues (a : Ptr) : a ∈ savedValues u c ↔ Held c a :=
  (collectValues_spec u.pair c.hashToMaster c.fileToMaster).2 a

def loadedPtrs (c : Context) : List Ptr × Heap :=
  mallocAll i.alloc (((savedValues u c).map c.cell).take (restored (savedValues u c).length)) emptyHeap

theorem loaded_values (h : InRange c) :
    mallocAll i.alloc (loadValuesArray decodeMasterInfo (indexDestroy u c).pair.values) emptyHeap =
      loadedPtrs u i c := by
  unfold loadedPtrs
  refine congrArg (mallocAll i.alloc · emptyHeap) ?_
  refine values_reload (savedValues u c) ?_
  intro a ha
  have := h.infos a ((mem_savedValues u a).mp ha)
  exact encodes_masterInfo u.pad c.cell a this.1 this.2

theorem remount_heap (h : InRange c) : (remount u i c).toHeap = (loadedPtrs u i c).2 :=
  congrArg Prod.snd (loaded_values u i h)

theorem remount_tables (h : InRange c) :
    (remount u i c).hashToMaster = loadIndexed i.pair.load1 decodeHash (loadedPtrs u i c).1
      (indexDestroy u c).pair.table1 ∧
    (remount u i c).fileToMaster = loadIndexed i.pair.load2 decodeBlockIndice (loadedPtrs u i c).1
      (indexDestroy u c).pair.table2 := by
  rw [←loaded_values u i h]
  exact ⟨rfl,rfl⟩

theorem remount_free (h : InRange c) : (remount u i c).freeBlockList =
    c.freeBlockList.take (restored c.freeBlockList.length) :=
  gslist_reload c.freeBlockList (fun q hq => encodes_freeBlock q (h.free q hq))

theorem remount_live (h : InRange c) {x : Ptr} (hx : x ∈ (remount u i c).live) :
    ∃ a, Held c a ∧ (remount u i c).cell x = c.cell a := by
  obtain ⟨_,_,_,hl,_,hc⟩ := mallocAll_spec i.alloc_fresh
    (((savedValues u c).map c.cell).take (restored (savedValues u c).length)) emptyHeap
  have hheap := remount_heap u i h
  rw [congrArg Heap.live hheap] at hx
  rw [congrArg Heap.cell hheap]
  have hmem := ((hl x).mp hx).resolve_left (by simp [emptyHeap])
  obtain ⟨j,hj⟩ := List.mem_iff_getElem?.mp hmem
  have hcell := hc j x hj
  have hin := List.mem_of_mem_take (List.mem_of_getElem? hcell)
  obtain ⟨a,ha,heq⟩ := List.mem_map.mp hin
  exact ⟨a,(mem_savedValues u a).mp ha,heq.symm⟩

/-- Where the mount puts an object. -/
def movedTo (c : Context) (a : Ptr) : Ptr :=
  ((loadedPtrs u i c).1[(savedValues u c).idxOf a]?).getD 0

section Moved

variable {u} (hs : SmallTables u c)
include hs

theorem loadedPtrs_all :
    loadedPtrs u i c = mallocAll i.alloc ((savedValues u c).map c.cell) emptyHeap := by
  have hlen : restored (savedValues u c).length = (savedValues u c).length := restored_eq hs.shared
  rw [loadedPtrs,hlen,List.take_of_length_le (by simp)]

theorem loadedPtrs_length : (loadedPtrs u i c).1.length = (savedValues u c).length := by
  rw [loadedPtrs_all i hs,(mallocAll_spec i.alloc_fresh _ emptyHeap).1,List.length_map]

theorem movedTo_position {a : Ptr} (ha : Held c a) :
    (savedValues u c).idxOf a < (loadedPtrs u i c).1.length := by
  rw [loadedPtrs_length i hs]
  exact List.idxOf_lt_length_of_mem ((mem_savedValues u a).mpr ha)

theorem movedTo_get {a : Ptr} (ha : Held c a) :
    (loadedPtrs u i c).1[(savedValues u c).idxOf a]? = some (movedTo u i c a) := by
  simp only [movedTo,List.getElem?_eq_getElem (movedTo_position i hs ha),Option.getD_some]

theorem movedTo_cell {a : Ptr} (ha : Held c a) :
    (loadedPtrs u i c).2.cell (movedTo u i c a) = c.cell a := by
  obtain ⟨_,_,_,_,_,h₆⟩ := mallocAll_spec i.alloc_fresh ((savedValues u c).map c.cell) emptyHeap
  rw [←loadedPtrs_all i hs] at h₆
  have hcell := h₆ _ _ (movedTo_get i hs ha)
  rw [List.getElem?_map,List.getElem?_idxOf ((mem_savedValues u a).mpr ha)] at hcell
  exact (Option.some.inj hcell).symm

theorem movedTo_injective {a b : Ptr} (ha : Held c a) (hb : Held c b)
    (hab : movedTo u i c a = movedTo u i c b) : a = b := by
  obtain ⟨_,h₂,_⟩ := mallocAll_spec i.alloc_fresh ((savedValues u c).map c.cell) emptyHeap
  rw [←loadedPtrs_all i hs] at h₂
  have hidx : (savedValues u c).idxOf a = (savedValues u c).idxOf b := by
    refine (List.getElem?_inj (movedTo_position i hs ha) h₂).mp ?_
    rw [movedTo_get i hs ha,movedTo_get i hs hb,hab]
  exact (List.idxOf_inj ((mem_savedValues u a).mpr ha)).mp hidx

theorem movedTo_live (x : Ptr) :
    x ∈ (loadedPtrs u i c).2.live ↔ ∃ a, Held c a ∧ movedTo u i c a = x := by
  have hnd : (savedValues u c).Nodup :=
    collected_nodup (collectValues_spec u.pair c.hashToMaster c.fileToMaster).1
  obtain ⟨_,_,_,h₄,_⟩ := mallocAll_spec i.alloc_fresh ((savedValues u c).map c.cell) emptyHeap
  rw [←loadedPtrs_all i hs] at h₄
  rw [h₄ x]
  constructor
  · rintro (hx | hx)
    · exact absurd hx (by simp [emptyHeap])
    · obtain ⟨j,hj⟩ := List.mem_iff_getElem?.mp hx
      have hjl : j < (savedValues u c).length := by
        rw [←loadedPtrs_length i hs]
        exact (List.getElem?_eq_some_iff.mp hj).1
      have hheld := (mem_savedValues u _).mp (List.getElem_mem hjl)
      refine ⟨(savedValues u c)[j],hheld,?_⟩
      have hg := movedTo_get i hs hheld
      rw [hnd.idxOf_getElem j hjl,hj] at hg
      exact (Option.some.inj hg).symm
  · rintro ⟨a,ha,rfl⟩
    exact Or.inr (List.mem_of_getElem? (movedTo_get i hs ha))

theorem loadedPtrs_blank {x : Ptr} (hx : x ∉ (loadedPtrs u i c).2.live) :
    (loadedPtrs u i c).2.cell x = default := by
  obtain ⟨_,_,_,h₄,h₅,_⟩ := mallocAll_spec i.alloc_fresh ((savedValues u c).map c.cell) emptyHeap
  rw [←loadedPtrs_all i hs] at h₄ h₅
  rw [h₄ x,not_or] at hx
  exact h₅ x hx.2

end Moved

/-- Unmount and mount move the objects and change nothing else of the index. -/
theorem remount_renamed (h : InRange c) (hs : SmallTables u c) :
    ∃ ρ, Renamed ρ c (remount u i c) := by
  have hcol := (collectValues_spec u.pair c.hashToMaster c.fileToMaster).1
  have hheap := remount_heap u i h
  refine ⟨movedTo u i c,?_⟩
  exact
    { hashToMaster := by
        intro k
        have hr := indexed_reload hcol hs.shared i.pair.load1 u.pair.save1 c.hashToMaster
          hs.hashToMaster (fun k x hk => ⟨encodes_hash k,(mem_savedValues u x).mpr (Or.inl ⟨k,hk⟩)⟩)
          (loadedPtrs u i c).1 k
        rw [(remount_tables u i h).1]
        refine hr.trans ?_
        cases hk : find c.hashToMaster k with
        | none => rfl
        | some a => exact movedTo_get i hs (Or.inl ⟨k,hk⟩)
      fileToMaster := by
        intro k
        have hr := indexed_reload hcol hs.shared i.pair.load2 u.pair.save2 c.fileToMaster
          hs.fileToMaster (fun k x hk => ⟨encodes_blockIndice k (h.offsets k x hk),
            (mem_savedValues u x).mpr (Or.inr ⟨k,hk⟩)⟩)
          (loadedPtrs u i c).1 k
        rw [(remount_tables u i h).2]
        refine hr.trans ?_
        cases hk : find c.fileToMaster k with
        | none => rfl
        | some a => exact movedTo_get i hs (Or.inr ⟨k,hk⟩)
      fileToSizes := ghash_reload u.sizes c.fileToSizes hs.fileToSizes
        (fun p n hp => ⟨encodes_str p,encodes_size n (h.sizes p n hp)⟩)
      freeBlockList := by
        rw [remount_free u i h,restored_eq hs.freeBlockList,List.take_length]
      infos := by
        intro a ha
        rw [congrArg Heap.cell hheap]
        exact movedTo_cell i hs ha
      injective := fun a b ha hb hab => movedTo_injective i hs ha hb hab
      live := by
        intro x
        rw [congrArg Heap.live hheap]
        exact movedTo_live i hs x
      blank := by
        intro x hx
        rw [congrArg Heap.live hheap] at hx
        rw [congrArg Heap.cell hheap]
        exact loadedPtrs_blank i hs hx }

theorem remount_lost (hn : 2^31 ≤ c.fileToMaster.entries.length)
    (hn' : c.fileToMaster.entries.length < 2^32) (k : BlockIndice) :
    find (remount u i c).fileToMaster k = none := by
  have hcol := (collectValues_spec u.pair c.hashToMaster c.fileToMaster).1
  exact indexed_lost hcol i.pair.load2 u.pair.save2 c.fileToMaster hn hn'
    (fun k x hk => (mem_savedValues u x).mpr (Or.inr ⟨k,hk⟩)) _ k

end ArchivalDedup.Remount
