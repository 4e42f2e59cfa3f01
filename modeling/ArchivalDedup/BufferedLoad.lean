import ArchivalDedup.BufferedReader
import ArchivalDedup.Remount

/-!
# Loading through short reads

The loads of `index_init` written out with the buffered reader as it is, each
`pread` of which may deliver less than it was asked for. They bring back what the
loads over complete reads bring back, so everything that is proved about an unmount
and a mount, with whole files or with cut ones, holds for short reads too.
-/

set_option autoImplicit false

namespace ArchivalDedup.BufferedLoad
open ArchivalDedup.FiniteTable ArchivalDedup.LittleEndian ArchivalDedup.MetaIndex
open ArchivalDedup.Persistence hiding readElemBuffered writeElemBuffered
open ArchivalDedup.BufferedStream ArchivalDedup.Remount
open ArchivalDedup.BufferedFile ArchivalDedup.BufferedReader

variable {α γ κ ν : Type}

/-- One turn of the loop of `ghash_load`; the value is read even after a key that
could not be. -/
def readEntryBuffered (file : Bytes) (grant : ℕ → ℕ) (decodeKey : Bytes → Option κ)
    (decodeVal : Bytes → Option ν) (s : Input) : Input × Option (Sigma fun _ : κ => ν) :=
  let t := readElemBuffered file grant decodeKey s
  let u := readElemBuffered file grant decodeVal t.1
  (u.1,t.2.bind (fun key => u.2.map (fun val => ⟨key,val⟩)))

structure Fetching where
  memory : ℕ → UInt8
  grant : ℕ → ℕ

def loadAllBuffered (io : Fetching) (readOne : Input → Input × Option γ) (file : Bytes) : List γ :=
  match bufferedRead file io.grant
      (newReader io.memory Persistence.bufferSize bufferSize_pos bufferSize_fits) 4 with
  | (_,none) => []
  | (t,some n) => readUntil readOne (iterations n) t

def ghashLoadBuffered [DecidableEq κ] (io : Fetching) (decodeKey : Bytes → Option κ)
    (decodeVal : Bytes → Option ν) (file : Bytes) : Table κ ν :=
  fill ∅ (loadAllBuffered io (readEntryBuffered file io.grant decodeKey decodeVal) file)

def gslistLoadBuffered (io : Fetching) (decode : Bytes → Option α) (file : Bytes) : List α :=
  loadAllBuffered io (readElemBuffered file io.grant decode) file

def loadIndexedBuffered [DecidableEq κ] (io : Fetching) (order : Listing κ ℕ)
    (decodeKey : Bytes → Option κ) (values : List ν) (file : Bytes) : Table κ ν :=
  (order.list (ghashLoadBuffered io decodeKey decodeSizeElem file)).foldl (linkEntry values) ∅

structure LoadIO where
  hashToMaster : Fetching
  fileToMaster : Fetching
  values : Fetching
  fileToSizes : Fetching
  freeBlockList : Fetching

def indexInitBuffered (io : LoadIO) (i : Mounting) (f : IndexFiles) : Index × Heap :=
  let values := mallocAll i.alloc
    (gslistLoadBuffered io.values decodeMasterInfo f.pair.values) emptyHeap
  ({ hashToMaster := loadIndexedBuffered io.hashToMaster i.pair.load1 decodeHash values.1
       f.pair.table1
     fileToMaster := loadIndexedBuffered io.fileToMaster i.pair.load2 decodeBlockIndice values.1
       f.pair.table2
     fileToSizes := ghashLoadBuffered io.fileToSizes decodeStr decodeSize f.fileToSizes
     freeBlockList := gslistLoadBuffered io.freeBlockList decodeFreeBlock f.freeBlockList },values.2)

/-! ## Agreement -/

/-- From what is left of the file both readers get the same. -/
def Agrees (file : Bytes) (low : Input → Input × Option γ)
    (high : Reader UInt8 → Option (γ × Reader UInt8)) : Prop :=
  ∀ s r, Holding file s r.stream →
    (high r = none ∧ (low s).2 = none) ∨
    ∃ x r', high r = some (x,r') ∧ (low s).2 = some x ∧ Holding file (low s).1 r'.stream

variable {file : Bytes} (grant : ℕ → ℕ)

theorem read_agrees (n : ℕ) : Agrees file (fun s => bufferedRead file grant s n)
    (fun r => r.read Persistence.bufferSize n) := by
  intro s r h
  by_cases hn : n ≤ r.stream.length
  · have hlen : (r.stream.take n).length = n := by
      rw [List.length_take]
      omega
    obtain ⟨r',hr,hs⟩ := stream_read Persistence.bufferSize bufferSize_pos r (r.stream.take n)
      (r.stream.drop n) (List.take_append_drop ..).symm
    obtain ⟨hres,hnext⟩ := bufferedRead_full grant h hn
    rw [hlen] at hr
    rw [←hs] at hnext
    exact Or.inr ⟨_,r',hr,hres,hnext⟩
  · have hlt : r.stream.length < n := Nat.lt_of_not_le hn
    exact Or.inl ⟨read_short Persistence.bufferSize r n hlt,(bufferedRead_short grant h hlt).1⟩

theorem elem_agrees (decode : Bytes → Option α) : Agrees file (readElemBuffered file grant decode)
    (Persistence.readElemBuffered decode) := by
  intro s r h
  unfold readElemBuffered Persistence.readElemBuffered
  rcases read_agrees grant 8 s r h with ⟨h₁,l₁⟩ | ⟨size,r₁,h₁,l₁,hold₁⟩
  · dsimp only at h₁ l₁
    generalize bufferedRead file grant s 8 = t at l₁
    obtain ⟨t,o⟩ := t
    cases l₁
    exact Or.inl ⟨by rw [h₁]; rfl,rfl⟩
  · dsimp only at h₁ l₁ hold₁
    generalize bufferedRead file grant s 8 = t at l₁ hold₁
    obtain ⟨t,o⟩ := t
    cases l₁
    rw [h₁,Option.bind_some]
    rcases read_agrees grant (leNat size) t r₁ hold₁ with ⟨h₂,l₂⟩ | ⟨buf,r₂,h₂,l₂,hold₂⟩
    · dsimp only at h₂ l₂ ⊢
      generalize bufferedRead file grant t (leNat size) = u at l₂
      obtain ⟨u,o⟩ := u
      cases l₂
      exact Or.inl ⟨by rw [h₂]; rfl,rfl⟩
    · dsimp only at h₂ l₂ hold₂ ⊢
      generalize bufferedRead file grant t (leNat size) = u at l₂ hold₂
      obtain ⟨u,o⟩ := u
      cases l₂
      rw [h₂,Option.bind_some]
      dsimp only
      cases decode buf with
      | none => exact Or.inl ⟨rfl,rfl⟩
      | some a => exact Or.inr ⟨a,r₂,rfl,rfl,hold₂⟩

theorem entry_agrees (decodeKey : Bytes → Option κ) (decodeVal : Bytes → Option ν) :
    Agrees file (readEntryBuffered file grant decodeKey decodeVal)
      (readEntry decodeKey decodeVal) := by
  intro s r h
  unfold readEntryBuffered readEntry
  dsimp only
  rcases elem_agrees grant decodeKey s r h with ⟨h₁,l₁⟩ | ⟨key,r₁,h₁,l₁,hold₁⟩
  · exact Or.inl ⟨by rw [h₁]; rfl,by rw [l₁]; rfl⟩
  · rw [h₁,l₁,Option.bind_some,Option.bind_some]
    rcases elem_agrees grant decodeVal _ r₁ hold₁ with ⟨h₂,l₂⟩ | ⟨val,r₂,h₂,l₂,hold₂⟩
    · exact Or.inl ⟨by rw [h₂]; rfl,by rw [l₂]; rfl⟩
    · exact Or.inr ⟨⟨key,val⟩,r₂,by rw [h₂]; rfl,by rw [l₂]; rfl,hold₂⟩

theorem readUntil_agrees {low : Input → Input × Option γ}
    {high : Reader UInt8 → Option (γ × Reader UInt8)} (ha : Agrees file low high) (n : ℕ)
    (s : Input) (r : Reader UInt8) (h : Holding file s r.stream) :
    readUntil low n s = readMany high n r := by
  induction n generalizing s r with
  | zero => rfl
  | succ n ih =>
    unfold readUntil readMany
    rcases ha s r h with ⟨h₁,l₁⟩ | ⟨x,r',h₁,l₁,hold⟩
    · generalize low s = t at l₁
      obtain ⟨t,o⟩ := t
      cases l₁
      rw [h₁]
    · generalize low s = t at l₁ hold
      obtain ⟨t,o⟩ := t
      cases l₁
      rw [h₁]
      exact congrArg (x::·) (ih t r' hold)

theorem loadAll_agrees {io : Fetching} {low : Input → Input × Option γ}
    {high : Reader UInt8 → Option (γ × Reader UInt8)} (ha : Agrees file low high) :
    loadAllBuffered io low file = loadAll high file := by
  have hnew := holding_new io.memory Persistence.bufferSize bufferSize_pos bufferSize_fits file
  unfold loadAllBuffered loadAll
  rcases read_agrees io.grant 4 _ (Reader.create file) hnew with ⟨h₁,l₁⟩ | ⟨n,r,h₁,l₁,hold⟩
  · dsimp only at h₁ l₁
    generalize bufferedRead file io.grant _ 4 = t at l₁ ⊢
    obtain ⟨t,o⟩ := t
    cases l₁
    rw [h₁]
  · dsimp only at h₁ l₁ hold
    generalize bufferedRead file io.grant _ 4 = t at l₁ hold ⊢
    obtain ⟨t,o⟩ := t
    cases l₁
    rw [h₁]
    exact readUntil_agrees ha (iterations n) t r hold

theorem indexInit_short_reads (io : LoadIO) (i : Mounting) (f : IndexFiles) :
    indexInitBuffered io i f = indexInit i f := by
  have hlist : ∀ {α : Type} (io : Fetching) (decode : Bytes → Option α) (file : Bytes),
      gslistLoadBuffered io decode file = gslistLoad decode file :=
    fun io decode _ => loadAll_agrees (elem_agrees io.grant decode)
  have htable : ∀ {κ ν : Type} [DecidableEq κ] (io : Fetching) (decodeKey : Bytes → Option κ)
      (decodeVal : Bytes → Option ν) (file : Bytes),
      ghashLoadBuffered io decodeKey decodeVal file = ghashLoad decodeKey decodeVal file :=
    fun io decodeKey decodeVal _ =>
      congrArg (fill ∅) (loadAll_agrees (entry_agrees io.grant decodeKey decodeVal))
  unfold indexInitBuffered loadIndexedBuffered
  rw [hlist,hlist,htable,htable,htable]
  rfl

end ArchivalDedup.BufferedLoad
