import Mathlib.Algebra.Group.Int.Defs
import ArchivalDedup.BufferedReader
import ArchivalDedup.Remount

/-!
# What the decoders read

Every decoder is given the address of a buffer and an `int`, the size of the
element cut down to 32 bits. It copies from that address on, whatever lies there:
`reads` lists the copies. Four of the seven compare the size with a constant; the
other three trust the element. Arbitrary bytes in a table file reach the decoders
through the loops of `index_init`.
-/

set_option autoImplicit false

namespace ArchivalDedup.ElementDecoding
open ArchivalDedup.Persistence hiding readElemBuffered writeElemBuffered decodeSizeElem
open ArchivalDedup.Remount hiding decodeHash decodeMasterInfo decodeBlockIndice decodeFreeBlock
  decodeSize decodeStr
open ArchivalDedup.LittleEndian ArchivalDedup.MetaIndex ArchivalDedup.BufferedFile
open ArchivalDedup.BufferedReader

/-! ## The decoders -/

def toInt (n : ℕ) : ℤ := Int.bmod n (2^32)

def toSizeT (x : ℤ) : ℕ := (x % 2^64).toNat

/-- `n` bytes of memory from an address on; addresses count from the start of the
element. -/
def copyOf (memory : ℤ → UInt8) (p : ℤ) (n : ℕ) : Bytes :=
  (List.range n).map (fun i : ℕ => memory (p+(i : ℤ)))

inductive Elem where
  | plain (bytes : Bytes)
  | str (path : Bytes)
  | blockIndice (path : Bytes) (offset : ℕ)

def Elem.path : Elem → Option Bytes
  | .plain _ => none
  | .str path => some path
  | .blockIndice path _ => some path

/-- The copies out of the element, start and length, and what is returned. -/
structure Decoded where
  reads : List (ℤ × ℕ)
  result : Option Elem

def decodeFixed (n : ℕ) (memory : ℤ → UInt8) (size : ℤ) : Decoded :=
  if size ≠ n then ⟨[],none⟩ else ⟨[(0,n)],some (.plain (copyOf memory 0 n))⟩

def decodeMasterInfo : (ℤ → UInt8) → ℤ → Decoded := decodeFixed 80

def decodeHash : (ℤ → UInt8) → ℤ → Decoded := decodeFixed hashSize

def decodeFreeBlock : (ℤ → UInt8) → ℤ → Decoded := decodeFixed 8

def decodeSizeElem : (ℤ → UInt8) → ℤ → Decoded := decodeFixed 8

def decodeSize (memory : ℤ → UInt8) (_size : ℤ) : Decoded :=
  ⟨[(0,8)],some (.plain (copyOf memory 0 8))⟩

def decodeStr (memory : ℤ → UInt8) (size : ℤ) : Decoded :=
  ⟨[(0,toSizeT size)],some (.str (copyOf memory 0 (toSizeT size)))⟩

/-- `path_len` is an `int`: it counts as `size_t` for the copy, and moves the
pointer by its sign. -/
def decodeBlockIndice (memory : ℤ → UInt8) (_size : ℤ) : Decoded :=
  let pathLen := toInt (leNat (copyOf memory 0 4))
  ⟨[(0,4),(4,toSizeT pathLen),(4+pathLen,8)],
    some (.blockIndice (copyOf memory 4 (toSizeT pathLen)) (leNat (copyOf memory (4+pathLen) 8)))⟩

inductive Decoder where
  | hash
  | masterInfo
  | blockIndice
  | str
  | size
  | freeBlock
  | sizeElem
  deriving DecidableEq

def Decoder.run : Decoder → (ℤ → UInt8) → ℤ → Decoded
  | .hash => decodeHash
  | .masterInfo => decodeMasterInfo
  | .blockIndice => decodeBlockIndice
  | .str => decodeStr
  | .size => decodeSize
  | .freeBlock => decodeFreeBlock
  | .sizeElem => decodeSizeElem

/-- Memory with the element at address 0 and anything around it. -/
def around (junk : ℤ → UInt8) (data : Bytes) : ℤ → UInt8 :=
  fun x => if 0 ≤ x then (data[x.toNat]?).getD (junk x) else junk x

def decodeCall (junk : ℤ → UInt8) (d : Decoder) (data : Bytes) : Decoded :=
  d.run (around junk data) (toInt data.length)

/-! ## The calls of `index_init` -/

section Calls

variable (junk : ℤ → UInt8) (file : Bytes) (grant : ℕ → ℕ)

/-- One iteration of a load: a value, or a key and then a value, which is read also
after a NULL. The last component says whether none was NULL. -/
def turnCalls : List Decoder → Input → Input × List (Decoder × Bytes) × Bool
  | [], s => (s,[],true)
  | d::ds, s =>
    match BufferedFile.readElemBuffered file grant some s with
    | (t,none) =>
      let u := turnCalls ds t
      (u.1,u.2.1,false)
    | (t,some data) =>
      let u := turnCalls ds t
      (u.1,(d,data)::u.2.1,(decodeCall junk d data).result.isSome && u.2.2)

def loopCalls (ds : List Decoder) : ℕ → Input → List (Decoder × Bytes)
  | 0, _ => []
  | n+1, s =>
    let t := turnCalls junk file grant ds s
    t.2.1++if t.2.2 then loopCalls ds n t.1 else []

def fileCalls (ds : List Decoder) (s : Input) : List (Decoder × Bytes) :=
  match bufferedRead file grant s 4 with
  | (_,none) => []
  | (t,some n) => loopCalls junk file grant ds (iterations n) t

end Calls

/-- Every element that a decoder is given while the five files are loaded. -/
def indexInitCalls (junk : ℤ → UInt8) (grant : ℕ → ℕ) (memory : ℕ → UInt8) (f : IndexFiles) :
    List (Decoder × Bytes) :=
  let s := newReader memory bufferSize bufferSize_pos bufferSize_fits
  fileCalls junk f.pair.values grant [.masterInfo] s++
  fileCalls junk f.pair.table1 grant [.hash,.sizeElem] s++
  fileCalls junk f.pair.table2 grant [.blockIndice,.sizeElem] s++
  fileCalls junk f.fileToSizes grant [.str,.size] s++
  fileCalls junk f.freeBlockList grant [.freeBlock] s

/-! ## Elements and what is expected of a decoder -/

/-- The bytes are an element as the matching encoder writes it. -/
def Valid : Decoder → Bytes → Prop
  | .hash, data => data.length = hashSize
  | .masterInfo, data => data.length = 80
  | .blockIndice, data => data.length < 2^31 ∧ ∃ chars offset : Bytes, 0 ∉ chars ∧
      offset.length = 8 ∧ data = leBytes 4 (chars.length+1)++((chars++[0])++offset)
  | .str, data => data.length < 2^31 ∧ ∃ chars : Bytes, 0 ∉ chars ∧ data = chars++[0]
  | .size, data => data.length = 8
  | .freeBlock, data => data.length = 8
  | .sizeElem, data => data.length = 8

def Decoder.expected : Decoder → Option ℕ
  | .hash => some hashSize
  | .masterInfo => some 80
  | .freeBlock => some 8
  | .sizeElem => some 8
  | .blockIndice => none
  | .str => none
  | .size => none

/-- The copies stay inside the element, what is no element gives NULL, and a path
ends inside its allocation. -/
structure Confined (junk : ℤ → UInt8) (d : Decoder) (data : Bytes) : Prop where
  inside : ∀ r ∈ (decodeCall junk d data).reads, ∀ x : ℤ, r.1 ≤ x → x < r.1+r.2 →
    0 ≤ x ∧ x < data.length
  rejects : ¬ Valid d data → (decodeCall junk d data).result = none
  ends : ∀ e path, (decodeCall junk d data).result = some e → e.path = some path → 0 ∈ path

/-- The element is one, or the size tells that it is not. -/
def Guarded (d : Decoder) (data : Bytes) : Prop :=
  Valid d data ∨ ∃ n, d.expected = some n ∧ toInt data.length ≠ n

/-! ## When a call is confined -/

theorem toInt_small {n : ℕ} (h : n < 2^31) : toInt n = n := by
  unfold toInt Int.bmod
  dsimp only
  split_ifs <;> omega

theorem toInt_le {n k : ℕ} (h : toInt n = k) : k ≤ n := by
  unfold toInt Int.bmod at h
  dsimp only at h
  split_ifs at h <;> omega

theorem toSizeT_nat {n : ℕ} (h : n < 2^64) : toSizeT n = n := by
  unfold toSizeT
  omega

theorem around_inside (junk : ℤ → UInt8) (data : Bytes) {i : ℕ} (h : i < data.length) :
    around junk data i = data[i] := by
  unfold around
  rw [if_pos (Int.natCast_nonneg i),Int.toNat_natCast,List.getElem?_eq_getElem h,Option.getD_some]

theorem copyOf_inside (junk : ℤ → UInt8) (data : Bytes) (p n : ℕ) (h : p+n ≤ data.length) :
    copyOf (around junk data) p n = (data.drop p).take n := by
  apply List.ext_getElem
  · simp [copyOf]
    omega
  · intro i h₁ h₂
    have hi : i < n := by simpa [copyOf] using h₁
    have hcell := around_inside junk data (i := p+i) (by omega)
    simp only [copyOf,List.getElem_map,List.getElem_range,List.getElem_take,List.getElem_drop]
    rw [←Int.natCast_add]
    exact hcell

variable (junk : ℤ → UInt8)

theorem fixed_confined_iff {d : Decoder} {n : ℕ} (hrun : d.run = decodeFixed n)
    (hd : d.expected = some n) (data : Bytes) : Confined junk d data ↔ Guarded d data := by
  have hcall : decodeCall junk d data = decodeFixed n (around junk data) (toInt data.length) := by
    rw [decodeCall,hrun]
  by_cases hsize : toInt data.length = n
  · have hdec : decodeCall junk d data =
        ⟨[(0,n)],some (.plain (copyOf (around junk data) 0 n))⟩ := by
      rw [hcall,decodeFixed,if_neg (not_not.mpr hsize)]
    constructor
    · intro hc
      left
      by_contra hbad
      have := hc.rejects hbad
      rw [hdec] at this
      cases this
    · rintro (hvalid | ⟨k,hk,hne⟩)
      · refine ⟨?_,fun hbad => absurd hvalid hbad,?_⟩
        · rw [hdec]
          intro r hr x h₁ h₂
          rw [List.mem_singleton.mp hr] at h₁ h₂
          have := toInt_le hsize
          dsimp only at h₁ h₂
          omega
        · rw [hdec]
          intro e path he hp
          cases he
          cases hp
      · rw [hd] at hk
        cases hk
        exact absurd hsize hne
  · have hdec : decodeCall junk d data = ⟨[],none⟩ := by
      rw [hcall,decodeFixed,if_pos hsize]
    refine iff_of_true ⟨?_,?_,?_⟩ (Or.inr ⟨n,hd,hsize⟩)
    · rw [hdec]
      intro r hr
      cases hr
    · intro _
      rw [hdec]
    · rw [hdec]
      intro e path he
      cases he

theorem trusting_confined_iff {d : Decoder} (hd : d.expected = none) {data : Bytes}
    (hsome : (decodeCall junk d data).result ≠ none)
    (hin : Valid d data → ∀ r ∈ (decodeCall junk d data).reads, 0 ≤ r.1 ∧ r.1+r.2 ≤ data.length)
    (hend : Valid d data → ∀ e path, (decodeCall junk d data).result = some e →
      e.path = some path → 0 ∈ path) : Confined junk d data ↔ Guarded d data := by
  constructor
  · intro hc
    left
    by_contra hbad
    exact hsome (hc.rejects hbad)
  · rintro (hvalid | ⟨k,hk,_⟩)
    · refine ⟨?_,fun hbad => absurd hvalid hbad,hend hvalid⟩
      intro r hr x h₁ h₂
      have := hin hvalid r hr
      omega
    · rw [hd] at hk
      cases hk

theorem str_confined_iff (data : Bytes) : Confined junk .str data ↔ Guarded .str data := by
  have hdec : Valid .str data → decodeCall junk .str data = ⟨[(0,data.length)],some (.str data)⟩ := by
    rintro ⟨hlen,_⟩
    have hcopy := copyOf_inside junk data 0 data.length (by omega)
    rw [Int.natCast_zero,List.drop_zero,List.take_length] at hcopy
    change decodeStr (around junk data) (toInt data.length) = _
    rw [decodeStr,toInt_small hlen,toSizeT_nat (by omega),hcopy]
  refine trusting_confined_iff junk rfl (Option.some_ne_none _) ?_ ?_
  · intro hvalid r hr
    rw [hdec hvalid] at hr
    rw [List.mem_singleton.mp hr]
    dsimp only
    omega
  · intro hvalid e path he hp
    rw [hdec hvalid] at he
    obtain ⟨_,chars,_,hdata⟩ := hvalid
    cases he
    cases hp
    rw [hdata]
    simp

theorem size_confined_iff (data : Bytes) : Confined junk .size data ↔ Guarded .size data := by
  refine trusting_confined_iff junk rfl (Option.some_ne_none _) ?_ ?_
  · intro hvalid r hr
    rw [List.mem_singleton.mp hr]
    have hlen : data.length = 8 := hvalid
    dsimp only
    omega
  · intro _ e path he hp
    cases he
    cases hp

theorem blockIndice_fields {data chars offset : Bytes} (hlen : data.length < 2^31)
    (hoff : offset.length = 8) (hdata : data = leBytes 4 (chars.length+1)++((chars++[0])++offset)) :
    data.length = 4+(chars.length+1)+8 ∧
    toInt (leNat (copyOf (around junk data) 0 4)) = (chars.length+1 : ℕ) ∧
    copyOf (around junk data) 4 (chars.length+1) = chars++[0] ∧
    copyOf (around junk data) (4+(chars.length+1 : ℕ)) 8 = offset := by
  have hsize : data.length = 4+(chars.length+1)+8 := by
    rw [hdata]
    simp only [List.length_append,leBytes_length,List.length_singleton,hoff]
    omega
  have h₁ := copyOf_inside junk data 0 4 (by omega)
  have h₂ := copyOf_inside junk data 4 (chars.length+1) (by omega)
  have h₃ := copyOf_inside junk data (4+(chars.length+1)) 8 (by omega)
  have hdrop : data.drop 4 = (chars++[0])++offset := by
    rw [hdata,List.drop_left' (leBytes_length 4 _)]
  refine ⟨hsize,?_,?_,?_⟩
  · rw [Int.natCast_zero] at h₁
    rw [h₁,List.drop_zero,hdata,List.take_left' (leBytes_length 4 _),
      leNat_leBytes_of_lt (by omega),toInt_small (by omega)]
  · refine h₂.trans ?_
    rw [hdrop,List.take_left' (by simp)]
  · refine Eq.trans ?_ (h₃.trans ?_)
    · rw [Int.natCast_add]
      rfl
    · rw [←List.drop_drop,hdrop,List.drop_left' (by simp),List.take_of_length_le (by omega)]

theorem blockIndice_decoded {data chars offset : Bytes} (hlen : data.length < 2^31)
    (hoff : offset.length = 8) (hdata : data = leBytes 4 (chars.length+1)++((chars++[0])++offset)) :
    decodeCall junk .blockIndice data =
      ⟨[((0 : ℤ),4),(4,chars.length+1),(4+(chars.length+1 : ℕ),8)],
        some (.blockIndice (chars++[0]) (leNat offset))⟩ := by
  obtain ⟨hsize,hpath,hcopy,hrest⟩ := blockIndice_fields junk hlen hoff hdata
  change decodeBlockIndice (around junk data) (toInt data.length) = _
  rw [decodeBlockIndice,hpath,toSizeT_nat (by omega),hcopy,hrest]

theorem blockIndice_confined_iff (data : Bytes) :
    Confined junk .blockIndice data ↔ Guarded .blockIndice data := by
  refine trusting_confined_iff junk rfl (Option.some_ne_none _) ?_ ?_
  · rintro ⟨hlen,chars,offset,_,hoff,hdata⟩ r hr
    have hsize := (blockIndice_fields junk hlen hoff hdata).1
    rw [blockIndice_decoded junk hlen hoff hdata] at hr
    simp only [List.mem_cons,List.not_mem_nil,or_false] at hr
    rcases hr with rfl | rfl | rfl
    · dsimp only
      omega
    · dsimp only
      omega
    · dsimp only
      omega
  · rintro ⟨hlen,chars,offset,_,hoff,hdata⟩ e path he hp
    rw [blockIndice_decoded junk hlen hoff hdata] at he
    cases he
    cases hp
    simp

/-- On every element, whatever its size: a decoder is confined exactly when the
element is valid or the decoder's comparison refuses it. -/
theorem confined_iff (d : Decoder) (data : Bytes) : Confined junk d data ↔ Guarded d data := by
  cases d with
  | hash => exact fixed_confined_iff junk rfl rfl data
  | masterInfo => exact fixed_confined_iff junk rfl rfl data
  | blockIndice => exact blockIndice_confined_iff junk data
  | str => exact str_confined_iff junk data
  | size => exact size_confined_iff junk data
  | freeBlock => exact fixed_confined_iff junk rfl rfl data
  | sizeElem => exact fixed_confined_iff junk rfl rfl data

theorem encoded_valid :
    (∀ h, Valid .hash (encodeHash h)) ∧ (∀ pad m, Valid .masterInfo (encodeMasterInfo pad m)) ∧
    (∀ b, Valid .blockIndice (encodeBlockIndice b)) ∧ (∀ path, Valid .str (encodeStr path)) ∧
    (∀ n, Valid .size (encodeSize n)) ∧ (∀ n, Valid .freeBlock (encodeFreeBlock n)) ∧
    ∀ n, Valid .sizeElem (encodeSizeElem n) := by
  refine ⟨fun h => h.length_bytes,?_,?_,?_,leBytes_length 8,leBytes_length 8,leBytes_length 8⟩
  · intro pad m
    simp [Valid,encodeMasterInfo,m.hash.length_bytes,hashSize]
  · intro b
    have hfits := b.path.fits
    refine ⟨?_,b.path.chars,leBytes 8 b.offset,b.path.noNul,leBytes_length 8 _,rfl⟩
    simp only [encodeBlockIndice,List.length_append,leBytes_length,List.length_singleton]
    omega
  · intro path
    have hfits := path.fits
    refine ⟨?_,path.chars,path.noNul,rfl⟩
    simp only [encodeStr,List.length_append,List.length_singleton]
    omega

/-- Whatever the five files hold: all the decoders that `index_init` calls keep to
their elements, in any memory, exactly when every element that they are given is
valid or refused by its size. -/
theorem decoding_confined_iff (grant : ℕ → ℕ) (memory : ℕ → UInt8) (f : IndexFiles) :
    (∀ call ∈ indexInitCalls junk grant memory f, ∀ junk', Confined junk' call.1 call.2) ↔
      ∀ call ∈ indexInitCalls junk grant memory f, Guarded call.1 call.2 := by
  constructor
  · intro h call hc
    exact (confined_iff junk call.1 call.2).mp (h call hc junk)
  · intro h call hc junk'
    exact (confined_iff junk' call.1 call.2).mpr (h call hc)

def longPathFiles : IndexFiles where
  pair := ⟨[],leBytes 4 1++frame [100,0,0,0,47,97,98,99],[]⟩
  fileToSizes := []
  freeBlockList := []

theorem path_read_outside : ¬ ∀ call ∈ indexInitCalls (fun _ => 0) (fun _ => 4096) (fun _ => 0)
    longPathFiles, ∀ junk', Confined junk' call.1 call.2 := by
  intro h
  have hm : (Decoder.blockIndice,[100,0,0,0,47,97,98,99]) ∈
      indexInitCalls (fun _ => 0) (fun _ => 4096) (fun _ => 0) longPathFiles := by decide +kernel
  have hread : ((4 : ℤ),100) ∈ (decodeCall (fun _ => 0) .blockIndice
      [100,0,0,0,47,97,98,99]).reads := by decide +kernel
  have hin := (h _ hm (fun _ => 0)).inside _ hread 50 (by decide) (by decide)
  exact absurd hin.2 (by decide)

end ArchivalDedup.ElementDecoding
