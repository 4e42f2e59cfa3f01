import Mathlib.Algebra.BigOperators.Group.List.Basic
import Mathlib.Data.List.Nodup
import Mathlib.Data.List.ProdSigma
import Mathlib.Data.Nat.Digits.Lemmas
import ArchivalDedup.SyscallCounter

/-!
# The report of the syscall counter

The counters are read out of the map one by one and written as comma-separated
values: a line for each process, command and system call, and a total for each
system call. The processes and commands are found by comparing labels, texts made
of the command and the process. The name of a system call is left as its number.
-/

set_option autoImplicit false

namespace ArchivalDedup.CounterReport
open ArchivalDedup.SyscallCounter

def maxOps : ℕ := 7

def maxPids : ℕ := 100

def commStrLen : ℕ := 32

abbrev Entries := List (CounterKey × CounterValue)

def commandText (k : CounterKey) : List UInt8 := k.command.toList.takeWhile (· ≠ 0)

def decimal (n : ℕ) : List UInt8 :=
  if n = 0 then [48] else (Nat.digits 10 n).reverse.map (fun d => UInt8.ofNat (48+d))

/-- `%d` of a word that is declared as an `int`. -/
def intText (w : UInt32) : List UInt8 :=
  if w.toNat < 2^31 then decimal w.toNat else 45::decimal (2^32-w.toNat)

/-- `snprintf` with `"%s-%d"`: the text is cut to make room for its NUL. -/
def label (k : CounterKey) : List UInt8 :=
  (commandText k++45::intText k.pid).take (commStrLen-1)

/-- The values of a function along a list, each where it comes first, in an array
with room for `size` of them. There is no result when the code writes behind it. -/
def unique {α β : Type} [DecidableEq β] (size : ℕ) (f : α → β) (xs : List α) : Option (List β) :=
  xs.foldlM (fun list x => if f x ∈ list then some list
    else if list.length < size then some (list++[f x]) else none) []

def getUniquePidValues (entries : Entries) : Option (List (List UInt8)) :=
  unique maxPids label (entries.map Prod.fst)

def getUniqueOpValues (entries : Entries) : Option (List UInt32) :=
  unique maxOps CounterKey.op (entries.map Prod.fst)

def Matches (pid : List UInt8) (op : UInt32) (e : CounterKey × CounterValue) : Prop :=
  label e.1 = pid ∧ e.1.op = op

instance (pid : List UInt8) (op : UInt32) (e : CounterKey × CounterValue) :
    Decidable (Matches pid op e) := inferInstanceAs (Decidable (label e.1 = pid ∧ e.1.op = op))

/-- The loop over all entries for one cell: the value of the last that matches,
and every one that matches added to the total of the column. -/
def scan (entries : Entries) (pid : List UInt8) (op : UInt32) (val total : CounterValue) :
    CounterValue × CounterValue :=
  entries.foldl (fun s e => if Matches pid op e
    then (e.2,⟨s.2.count+e.2.count,s.2.timeSum+e.2.timeSum⟩) else s) (val,total)

structure Cell where
  pid : List UInt8
  op : UInt32
  val : CounterValue
  deriving DecidableEq

def rowCells (entries : Entries) (pid : List UInt8) :
    List UInt32 → List CounterValue → List Cell × List CounterValue
  | op::ops, total::totals =>
    let s := scan entries pid op ⟨0,0⟩ total
    let rest := rowCells entries pid ops totals
    (⟨pid,op,s.1⟩::rest.1,s.2::rest.2)
  | _, totals => ([],totals)

def tableCells (entries : Entries) (ops : List UInt32) :
    List (List UInt8) → List CounterValue → List Cell × List CounterValue
  | [], totals => ([],totals)
  | pid::pids, totals =>
    let row := rowCells entries pid ops totals
    let rest := tableCells entries ops pids row.2
    (row.1++rest.1,rest.2)

def results (entries : Entries) : Option (List Cell × List CounterValue) :=
  (getUniquePidValues entries).bind (fun pids => (getUniqueOpValues entries).map (fun ops =>
    let t := tableCells entries ops pids (List.replicate maxOps ⟨0,0⟩)
    (t.1,t.2.take ops.length)))

/-- The one quotient of two longs that is no long: the division traps. -/
def Traps (v : CounterValue) : Prop := long v.count = -1 ∧ long v.timeSum = -2^63

instance (v : CounterValue) : Decidable (Traps v) :=
  inferInstanceAs (Decidable (long v.count = -1 ∧ long v.timeSum = -2^63))

def avgTime (v : CounterValue) : Option ℤ :=
  if long v.count = 0 then some 0
  else if Traps v then none else some ((long v.timeSum).tdiv (long v.count))

structure Row where
  pid : List UInt8
  op : UInt32
  count : ℤ
  avgTimeNs : ℤ
  deriving DecidableEq

def Cell.row (c : Cell) : Row :=
  ⟨c.pid,c.op,long c.val.count,(long c.val.timeSum).tdiv (long c.val.count)⟩

structure Report where
  rows : List Row
  totals : List (ℤ × ℤ)
  deriving DecidableEq

def totalLine (totals : List CounterValue) : Option (List (ℤ × ℤ)) :=
  totals.mapM (fun v => (avgTime v).map (fun avg => (long v.count,avg)))

/-- A line for every cell with a positive count, then the totals. There is no result
when an array is overrun or a division traps. -/
def writeResultsToCsv (entries : Entries) : Option Report :=
  (results entries).bind (fun t => (totalLine t.2).map (fun totals =>
    ⟨(t.1.filter (fun c => 0 < long c.val.count)).map Cell.row,totals⟩))

/-! ## Labels -/

/-- The command is a text with a NUL, filled up with NULs, and the process has a
number that is not negative. -/
structure Named (k : CounterKey) : Prop where
  padded : k.command.toList = commandText k++List.replicate (16-(commandText k).length) 0
  ended : (commandText k).length < 16
  pid : k.pid.toNat < 2^31

instance (k : CounterKey) : Decidable (Named k) :=
  decidable_of_iff (k.command.toList =
      commandText k++List.replicate (16-(commandText k).length) 0 ∧
      (commandText k).length < 16 ∧ k.pid.toNat < 2^31)
    ⟨fun ⟨h₁,h₂,h₃⟩ => ⟨h₁,h₂,h₃⟩,fun ⟨h₁,h₂,h₃⟩ => ⟨h₁,h₂,h₃⟩⟩

theorem digit_byte {d : ℕ} (h : d < 10) : (UInt8.ofNat (48+d)).toNat = 48+d := by
  rw [UInt8.toNat_ofNat']
  omega

theorem decimal_digits (n : ℕ) : ∀ b ∈ decimal n, 48 ≤ b.toNat ∧ b.toNat < 58 := by
  intro b hb
  unfold decimal at hb
  split_ifs at hb
  · rw [List.mem_singleton.mp hb]
    decide
  · obtain ⟨d,hd,rfl⟩ := List.mem_map.mp hb
    have hlt := Nat.digits_lt_base (by decide : 1 < 10) (List.mem_reverse.mp hd)
    rw [digit_byte hlt]
    omega

theorem decimal_value (n : ℕ) :
    Nat.ofDigits 10 ((decimal n).reverse.map (fun b => b.toNat-48)) = n := by
  unfold decimal
  split_ifs with hz
  · rw [hz]
    rfl
  · have hdigits : (Nat.digits 10 n).map (fun d => (UInt8.ofNat (48+d)).toNat-48) =
        Nat.digits 10 n := by
      conv_rhs => rw [←List.map_id (Nat.digits 10 n)]
      refine List.map_congr_left ?_
      intro d hd
      rw [digit_byte (Nat.digits_lt_base (by decide) hd)]
      exact Nat.add_sub_cancel_left 48 d
    rw [←List.map_reverse,List.reverse_reverse,List.map_map]
    exact (congrArg (Nat.ofDigits 10) hdigits).trans (Nat.ofDigits_digits 10 n)

theorem decimal_injective {m n : ℕ} (h : decimal m = decimal n) : m = n := by
  rw [←decimal_value m,h,decimal_value]

theorem decimal_length {n : ℕ} (h : n < 10^10) : (decimal n).length ≤ 10 := by
  unfold decimal
  split_ifs
  · decide
  · rw [List.length_map,List.length_reverse]
    exact (Nat.digits_length_le_iff (by decide) n).mpr h

theorem dashed_injective {a b x y : List UInt8} (hx : 45 ∉ x) (hy : 45 ∉ y)
    (h : a++45::x = b++45::y) : a = b ∧ x = y := by
  rcases List.append_eq_append_iff.mp h with ⟨zs,hb,hz⟩ | ⟨zs,ha,hz⟩
  · cases zs with
    | nil => exact ⟨by simpa using hb.symm,(List.cons.inj hz).2⟩
    | cons z zs =>
      have hmem : (45 : UInt8) ∈ x := by
        rw [(List.cons.inj hz).2]
        simp
      exact absurd hmem hx
  · cases zs with
    | nil => exact ⟨by simpa using ha,(List.cons.inj hz).2.symm⟩
    | cons z zs =>
      have hmem : (45 : UInt8) ∈ y := by
        rw [(List.cons.inj hz).2]
        simp
      exact absurd hmem hy

theorem named_label {k : CounterKey} (h : Named k) :
    label k = commandText k++45::decimal k.pid.toNat := by
  have hlen : (decimal k.pid.toNat).length ≤ 10 :=
    decimal_length (h.pid.trans (by decide))
  have hend := h.ended
  unfold label intText
  rw [if_pos h.pid,List.take_of_length_le]
  simp only [List.length_append,List.length_cons,commStrLen]
  omega

theorem label_injective {k k' : CounterKey} (h : Named k) (h' : Named k')
    (hl : label k = label k') : k.command = k'.command ∧ k.pid = k'.pid := by
  rw [named_label h,named_label h'] at hl
  have hdash : ∀ n, (45 : UInt8) ∉ decimal n := by
    intro n hm
    have := (decimal_digits n 45 hm).1
    exact absurd this (by decide)
  obtain ⟨hc,hp⟩ := dashed_injective (hdash _) (hdash _) hl
  constructor
  · refine Vector.toList_inj.mp ?_
    rw [h.padded,h'.padded,hc]
  · exact UInt32.toNat_inj.mp (decimal_injective hp)

/-! ## The lists of rows and columns -/

section Unique

variable {α β : Type} [DecidableEq β] (f : α → β) (xs : List α)

def distinct : List β := xs.foldl (fun list x => if f x ∈ list then list else list++[f x]) []

theorem distinct_append (x : α) : distinct f (xs++[x]) =
    if f x ∈ distinct f xs then distinct f xs else distinct f xs++[f x] := by
  rw [distinct,List.foldl_append]
  rfl

theorem mem_distinct : ∀ y, y ∈ distinct f xs ↔ ∃ x ∈ xs, f x = y := by
  induction xs using List.reverseRecOn with
  | nil => simp [distinct]
  | append_singleton xs x ih =>
    intro y
    rw [distinct_append]
    split_ifs with hx
    · rw [ih y]
      constructor
      · rintro ⟨z,hz,rfl⟩
        exact ⟨z,List.mem_append_left _ hz,rfl⟩
      · rintro ⟨z,hz,rfl⟩
        rcases List.mem_append.mp hz with hz | hz
        · exact ⟨z,hz,rfl⟩
        · rw [List.mem_singleton.mp hz]
          exact (ih (f x)).mp hx
    · rw [List.mem_append,ih y]
      simp only [List.mem_singleton,List.mem_append,or_and_right,exists_or,exists_eq_left]
      exact or_congr_right eq_comm

theorem distinct_nodup : (distinct f xs).Nodup := by
  induction xs using List.reverseRecOn with
  | nil => exact List.nodup_nil
  | append_singleton xs x ih =>
    rw [distinct_append]
    split_ifs with hx
    · exact ih
    · exact ih.append (List.nodup_singleton _) (by simpa using hx)

theorem unique_eq (size : ℕ) : unique size f xs =
    if (distinct f xs).length ≤ size then some (distinct f xs) else none := by
  induction xs using List.reverseRecOn with
  | nil => rfl
  | append_singleton xs x ih =>
    have hstep : unique size f (xs++[x]) = (unique size f xs).bind (fun list =>
        if f x ∈ list then some list
        else if list.length < size then some (list++[f x]) else none) := by
      rw [unique,List.foldlM_append]
      simp only [List.foldlM_cons,List.foldlM_nil,bind_pure]
      rfl
    rw [hstep,ih,distinct_append]
    by_cases hle : (distinct f xs).length ≤ size
    · rw [if_pos hle,Option.bind_some]
      by_cases hx : f x ∈ distinct f xs
      · rw [if_pos hx,if_pos hx,if_pos hle]
      · rw [if_neg hx,if_neg hx,List.length_append,List.length_singleton]
        rfl
    · rw [if_neg hle,Option.bind_none]
      split_ifs with hx hlen
      · rfl
      · rw [List.length_append] at hlen
        omega
      · rfl

end Unique

/-! ## Cells and totals -/

section Cells

variable (entries : Entries) (pid : List UInt8) (op : UInt32)

theorem scan_cons (e : CounterKey × CounterValue) (val total : CounterValue) :
    scan (e::entries) pid op val total = if Matches pid op e
      then scan entries pid op e.2 ⟨total.count+e.2.count,total.timeSum+e.2.timeSum⟩
      else scan entries pid op val total := by
  simp only [scan,List.foldl_cons]
  split_ifs <;> rfl

theorem scan_value {v : CounterValue} (h : ∀ e ∈ entries, Matches pid op e → e.2 = v)
    (val total : CounterValue) : (scan entries pid op val total).1 =
      if ∃ e ∈ entries, Matches pid op e then v else val := by
  induction entries generalizing val total with
  | nil => simp [scan]
  | cons e es ih =>
    have hrest := ih (fun x hx => h x (List.mem_cons_of_mem _ hx))
    rw [scan_cons]
    by_cases hm : Matches pid op e
    · have hv : e.2 = v := h e (List.mem_cons_self ..) hm
      have hex : ∃ x ∈ e::es, Matches pid op x := ⟨e,List.mem_cons_self ..,hm⟩
      rw [if_pos hm,hrest,if_pos hex,hv,ite_self]
    · have hiff : (∃ x ∈ e::es, Matches pid op x) ↔ ∃ x ∈ es, Matches pid op x := by simp [hm]
      rw [if_neg hm,hrest]
      simp only [hiff]

def share (word : CounterValue → UInt64) : ℕ :=
  (entries.map (fun e => if Matches pid op e then (word e.2).toNat else 0)).sum

theorem scan_total (val total : CounterValue) :
    (scan entries pid op val total).2.count.toNat =
      (total.count.toNat+share entries pid op CounterValue.count) % 2^64 ∧
    (scan entries pid op val total).2.timeSum.toNat =
      (total.timeSum.toNat+share entries pid op CounterValue.timeSum) % 2^64 := by
  induction entries generalizing val total with
  | nil =>
    have hc := total.count.toNat_lt
    have ht := total.timeSum.toNat_lt
    simp only [scan,List.foldl_nil,share,List.map_nil,List.sum_nil]
    omega
  | cons e es ih =>
    rw [scan_cons]
    simp only [share,List.map_cons,List.sum_cons]
    split_ifs
    · obtain ⟨hc,ht⟩ := ih e.2 ⟨total.count+e.2.count,total.timeSum+e.2.timeSum⟩
      simp only [share,UInt64.toNat_add] at hc ht
      omega
    · obtain ⟨hc,ht⟩ := ih val total
      simp only [share] at hc ht
      omega

theorem rowCells_eq (ops : List UInt32) (start : UInt32 → CounterValue) (rest : List CounterValue) :
    rowCells entries pid ops (ops.map start++rest) =
      (ops.map (fun op => ⟨pid,op,(scan entries pid op ⟨0,0⟩ (start op)).1⟩),
        ops.map (fun op => (scan entries pid op ⟨0,0⟩ (start op)).2)++rest) := by
  induction ops with
  | nil => rfl
  | cons op ops ih => simp only [List.map_cons,List.cons_append,rowCells,ih]

def cellValue : CounterValue := (scan entries pid op ⟨0,0⟩ ⟨0,0⟩).1

theorem scan_first (val total total' : CounterValue) :
    (scan entries pid op val total).1 = (scan entries pid op val total').1 := by
  induction entries generalizing val total total' with
  | nil => rfl
  | cons e es ih =>
    rw [scan_cons,scan_cons]
    split_ifs
    · exact ih _ _ _
    · exact ih _ _ _

theorem tableCells_eq (ops : List UInt32) (pids : List (List UInt8))
    (start : UInt32 → CounterValue) (rest : List CounterValue) :
    tableCells entries ops pids (ops.map start++rest) =
      (pids.flatMap (fun pid => ops.map (fun op => ⟨pid,op,cellValue entries pid op⟩)),
        ops.map (fun op => pids.foldl (fun t pid => (scan entries pid op ⟨0,0⟩ t).2) (start op))++
          rest) := by
  induction pids generalizing start with
  | nil => rfl
  | cons pid pids ih =>
    simp only [tableCells,rowCells_eq,ih,List.flatMap_cons,List.foldl_cons]
    simp only [cellValue,scan_first entries pid _ ⟨0,0⟩ (start _) ⟨0,0⟩]

theorem column_total (pids : List (List UInt8)) (start : CounterValue) :
    let t := pids.foldl (fun t pid => (scan entries pid op ⟨0,0⟩ t).2) start
    t.count.toNat = (start.count.toNat+
      (pids.map (fun pid => share entries pid op CounterValue.count)).sum) % 2^64 ∧
    t.timeSum.toNat = (start.timeSum.toNat+
      (pids.map (fun pid => share entries pid op CounterValue.timeSum)).sum) % 2^64 := by
  induction pids generalizing start with
  | nil =>
    have hc := start.count.toNat_lt
    have ht := start.timeSum.toNat_lt
    simp only [List.foldl_nil,List.map_nil,List.sum_nil]
    omega
  | cons pid pids ih =>
    obtain ⟨hc,ht⟩ := ih (scan entries pid op ⟨0,0⟩ start).2
    obtain ⟨hc',ht'⟩ := scan_total entries pid op ⟨0,0⟩ start
    simp only [List.foldl_cons,List.map_cons,List.sum_cons] at hc ht ⊢
    omega

def columnShare (word : CounterValue → UInt64) : ℕ :=
  ((entries.filter (fun e => e.1.op = op)).map (fun e => (word e.2).toNat)).sum

theorem sum_single {pids : List (List UInt8)} (hn : pids.Nodup) (hm : pid ∈ pids) (n : ℕ) :
    (pids.map (fun p => if pid = p then n else 0)).sum = n := by
  induction pids with
  | nil => cases hm
  | cons p ps ih =>
    obtain ⟨hp,hps⟩ := List.nodup_cons.mp hn
    rw [List.map_cons,List.sum_cons]
    by_cases heq : pid = p
    · have hrest : (ps.map (fun p => if pid = p then n else 0)).sum = 0 := by
        refine List.sum_eq_zero ?_
        intro x hx
        obtain ⟨q,hq,rfl⟩ := List.mem_map.mp hx
        refine if_neg ?_
        intro h
        rw [heq.symm.trans h] at hp
        exact hp hq
      rw [if_pos heq,hrest,Nat.add_zero]
    · rw [if_neg heq,ih hps ((List.mem_cons.mp hm).resolve_left heq),Nat.zero_add]

theorem share_rows {pids : List (List UInt8)} (hn : pids.Nodup)
    (hm : ∀ e ∈ entries, label e.1 ∈ pids) (word : CounterValue → UInt64) :
    (pids.map (fun pid => share entries pid op word)).sum = columnShare entries op word := by
  induction entries with
  | nil => simp [share,columnShare]
  | cons e es ih =>
    have hrest := ih (fun x hx => hm x (List.mem_cons_of_mem _ hx))
    have hone := sum_single (label e.1) hn (hm e (List.mem_cons_self ..)) (word e.2).toNat
    simp only [share,List.map_cons,List.sum_cons,List.sum_map_add] at hrest ⊢
    rw [hrest]
    by_cases ho : e.1.op = op
    · simp only [Matches,ho,and_true,hone]
      simp [columnShare,ho]
    · simp [columnShare,Matches,ho]

end Cells

/-! ## The whole report -/

variable {entries : Entries}

def pidsOf (entries : Entries) : List (List UInt8) := distinct label (entries.map Prod.fst)

def opsOf (entries : Entries) : List UInt32 := distinct CounterKey.op (entries.map Prod.fst)

def InArrays (entries : Entries) : Prop :=
  (pidsOf entries).length ≤ maxPids ∧ (opsOf entries).length ≤ maxOps

instance (entries : Entries) : Decidable (InArrays entries) :=
  inferInstanceAs (Decidable ((pidsOf entries).length ≤ maxPids ∧ (opsOf entries).length ≤ maxOps))

def column (entries : Entries) (op : UInt32) : CounterValue :=
  (pidsOf entries).foldl (fun t pid => (scan entries pid op ⟨0,0⟩ t).2) ⟨0,0⟩

theorem results_eq (h : InArrays entries) : results entries =
    some ((pidsOf entries).flatMap (fun pid => (opsOf entries).map (fun op =>
      ⟨pid,op,cellValue entries pid op⟩)),(opsOf entries).map (column entries)) := by
  have hzero : List.replicate maxOps (⟨0,0⟩ : CounterValue) =
      (opsOf entries).map (fun _ => ⟨0,0⟩)++
        List.replicate (maxOps-(opsOf entries).length) ⟨0,0⟩ := by
    rw [List.map_const',List.replicate_append_replicate,Nat.add_sub_cancel' h.2]
  have hpids : getUniquePidValues entries = some (pidsOf entries) :=
    (unique_eq label _ maxPids).trans (if_pos h.1)
  have hops : getUniqueOpValues entries = some (opsOf entries) :=
    (unique_eq CounterKey.op _ maxOps).trans (if_pos h.2)
  unfold results
  rw [hpids,Option.bind_some,hops,Option.map_some,hzero,tableCells_eq]
  simp only
  rw [List.take_left' (List.length_map _)]
  rfl

theorem results_none (h : ¬ InArrays entries) : results entries = none := by
  unfold results
  by_cases hp : (pidsOf entries).length ≤ maxPids
  · have hops : getUniqueOpValues entries = none :=
      (unique_eq CounterKey.op _ maxOps).trans (if_neg (fun ho => h ⟨hp,ho⟩))
    rw [hops]
    cases getUniquePidValues entries <;> rfl
  · have hpids : getUniquePidValues entries = none :=
      (unique_eq label _ maxPids).trans (if_neg hp)
    rw [hpids,Option.bind_none]

def rowOf (k : CounterKey) (v : CounterValue) : Row := (⟨label k,k.op,v⟩ : Cell).row

theorem entry_unique (hn : (entries.map Prod.fst).Nodup) (hk : ∀ e ∈ entries, Named e.1)
    {e e' : CounterKey × CounterValue} (he : e ∈ entries) (he' : e' ∈ entries)
    (hl : label e'.1 = label e.1) (ho : e'.1.op = e.1.op) : e' = e := by
  obtain ⟨hc,hp⟩ := label_injective (hk e' he') (hk e he) hl
  have hkey : e'.1 = e.1 := by
    obtain ⟨⟨_,_,_⟩,_⟩ := e
    obtain ⟨⟨_,_,_⟩,_⟩ := e'
    simp only at hc hp ho
    subst hc hp ho
    rfl
  exact List.inj_on_of_nodup_map hn he' he hkey

theorem cellValue_entry (hn : (entries.map Prod.fst).Nodup) (hk : ∀ e ∈ entries, Named e.1)
    {e : CounterKey × CounterValue} (he : e ∈ entries) :
    cellValue entries (label e.1) e.1.op = e.2 := by
  unfold cellValue
  rw [scan_value (v := e.2),if_pos ⟨e,he,rfl,rfl⟩]
  intro e' he' hm
  exact congrArg Prod.snd (entry_unique hn hk he he' hm.1 hm.2)

theorem cellValue_absent {pid : List UInt8} {op : UInt32}
    (h : ∀ e ∈ entries, ¬ Matches pid op e) : cellValue entries pid op = ⟨0,0⟩ := by
  unfold cellValue
  rw [scan_value (v := ⟨0,0⟩),ite_self]
  intro e he hm
  exact absurd hm (h e he)

theorem label_listed {e : CounterKey × CounterValue} (he : e ∈ entries) :
    label e.1 ∈ pidsOf entries :=
  (mem_distinct label _ _).mpr ⟨e.1,List.mem_map_of_mem he,rfl⟩

theorem op_listed {e : CounterKey × CounterValue} (he : e ∈ entries) :
    e.1.op ∈ opsOf entries :=
  (mem_distinct CounterKey.op _ _).mpr ⟨e.1,List.mem_map_of_mem he,rfl⟩

theorem counted_cells (hn : (entries.map Prod.fst).Nodup) (hk : ∀ e ∈ entries, Named e.1) :
    (((pidsOf entries).flatMap (fun pid => (opsOf entries).map (fun op =>
      (⟨pid,op,cellValue entries pid op⟩ : Cell)))).filter (fun c => 0 < long c.val.count)).Perm
      ((entries.filter (fun e => 0 < long e.2.count)).map (fun e => ⟨label e.1,e.1.op,e.2⟩)) := by
  have hcells : ((pidsOf entries).flatMap (fun pid => (opsOf entries).map
      (fun op => (⟨pid,op,cellValue entries pid op⟩ : Cell)))).Nodup := by
    refine List.Nodup.of_map (fun c => (c.pid,c.op)) ?_
    have hgrid := (distinct_nodup label (entries.map Prod.fst)).product
      (distinct_nodup CounterKey.op (entries.map Prod.fst))
    rw [List.map_flatMap]
    simp only [List.map_map]
    exact hgrid
  have hentries : ((entries.filter (fun e => 0 < long e.2.count)).map
      (fun e => (⟨label e.1,e.1.op,e.2⟩ : Cell))).Nodup := by
    refine List.Nodup.map_on ?_ ((List.Nodup.of_map _ hn).filter _)
    intro e he e' he' heq
    have hl := congrArg Cell.pid heq
    have hop := congrArg Cell.op heq
    exact entry_unique hn hk (List.mem_of_mem_filter he') (List.mem_of_mem_filter he) hl hop
  refine (List.perm_ext_iff_of_nodup (hcells.filter _) hentries).mpr ?_
  intro c
  simp only [List.mem_filter,List.mem_flatMap,List.mem_map,decide_eq_true_eq]
  constructor
  · rintro ⟨⟨pid,_,op,_,rfl⟩,hpos⟩
    by_cases hm : ∃ e ∈ entries, Matches pid op e
    · obtain ⟨e,he,rfl,rfl⟩ := hm
      have hv := cellValue_entry hn hk he
      simp only [hv] at hpos ⊢
      exact ⟨e,⟨he,hpos⟩,rfl⟩
    · have hv : cellValue entries pid op = ⟨0,0⟩ :=
        cellValue_absent (fun e he h => hm ⟨e,he,h⟩)
      simp only [hv] at hpos
      exact absurd hpos (by decide)
  · rintro ⟨e,⟨he,hpos⟩,rfl⟩
    refine ⟨⟨label e.1,label_listed he,e.1.op,op_listed he,?_⟩,hpos⟩
    rw [cellValue_entry hn hk he]

theorem avgTime_some (v : CounterValue) : (avgTime v).isSome ↔ ¬ Traps v := by
  unfold avgTime
  split_ifs with h₀ ht
  · exact iff_of_true rfl (fun ht => absurd (ht.1.symm.trans h₀) (by decide))
  · exact iff_of_false (by decide) (not_not.mpr ht)
  · exact iff_of_true rfl ht

theorem totalLine_some (totals : List CounterValue) :
    (totalLine totals).isSome ↔ ∀ v ∈ totals, ¬ Traps v := by
  induction totals with
  | nil => exact iff_of_true rfl (fun v hv => absurd hv (List.not_mem_nil))
  | cons v totals ih =>
    rw [List.forall_mem_cons,←avgTime_some,←ih]
    unfold totalLine
    rw [List.mapM_cons]
    cases avgTime v with
    | none => simp
    | some avg =>
      cases totals.mapM (fun v => (avgTime v).map (fun avg => (long v.count,avg))) with
      | none => simp
      | some line => simp

theorem csv_eq (h : InArrays entries) : writeResultsToCsv entries =
    (totalLine ((opsOf entries).map (column entries))).map (fun totals =>
      ⟨(((pidsOf entries).flatMap (fun pid => (opsOf entries).map (fun op =>
        (⟨pid,op,cellValue entries pid op⟩ : Cell)))).filter
          (fun c => 0 < long c.val.count)).map Cell.row,totals⟩) := by
  rw [writeResultsToCsv,results_eq h]
  rfl

theorem csv_none (h : ¬ InArrays entries) : writeResultsToCsv entries = none := by
  rw [writeResultsToCsv,results_none h]
  rfl

theorem csv_inArrays {report : Report} (h : writeResultsToCsv entries = some report) :
    InArrays entries := by
  by_contra hout
  rw [csv_none hout] at h
  cases h

theorem csv_rows (hn : (entries.map Prod.fst).Nodup) (hk : ∀ e ∈ entries, Named e.1)
    {report : Report} (h : writeResultsToCsv entries = some report) : report.rows.Perm
      ((entries.filter (fun e => 0 < long e.2.count)).map (fun e => rowOf e.1 e.2)) := by
  rw [csv_eq (csv_inArrays h)] at h
  obtain ⟨totals,_,rfl⟩ := Option.map_eq_some_iff.mp h
  have hperm := (counted_cells hn hk).map Cell.row
  rw [List.map_map] at hperm
  exact hperm

theorem column_sum (op : UInt32) :
    (column entries op).count.toNat = columnShare entries op CounterValue.count % 2^64 ∧
    (column entries op).timeSum.toNat = columnShare entries op CounterValue.timeSum % 2^64 := by
  have hpids : (pidsOf entries).Nodup := distinct_nodup label (entries.map Prod.fst)
  obtain ⟨hc,ht⟩ := column_total entries op (pidsOf entries) ⟨0,0⟩
  rw [share_rows entries op hpids (fun e he => label_listed he),UInt64.toNat_zero,
    Nat.zero_add] at hc ht
  exact ⟨hc,ht⟩

/-- For counters with commands and processes as the kernel gives them, whatever
their values: the file is written out exactly when there are at most 100 processes
and commands and 7 system calls and the division of no total traps. Then it has a
line for each counter that is positive, with its count and average, and no other
line; and the last line sums up every system call over all counters, in 64 bits. -/
theorem report_exact (entries : Entries) (hn : (entries.map Prod.fst).Nodup)
    (hk : ∀ e ∈ entries, Named e.1) :
    ((writeResultsToCsv entries).isSome ↔
      InArrays entries ∧ ∀ op ∈ opsOf entries, ¬ Traps (column entries op)) ∧
    (∀ report, writeResultsToCsv entries = some report →
      report.rows.Perm
        ((entries.filter (fun e => 0 < long e.2.count)).map (fun e => rowOf e.1 e.2)) ∧
      totalLine ((opsOf entries).map (column entries)) = some report.totals) ∧
    ∀ op, (column entries op).count.toNat = columnShare entries op CounterValue.count % 2^64 ∧
      (column entries op).timeSum.toNat = columnShare entries op CounterValue.timeSum % 2^64 := by
  refine ⟨?_,?_,column_sum⟩
  · by_cases hin : InArrays entries
    · rw [csv_eq hin,Option.isSome_map,totalLine_some,List.forall_mem_map]
      exact (and_iff_right hin).symm
    · rw [csv_none hin]
      exact iff_of_false (by decide) (fun h => hin h.1)
  · intro report h
    refine ⟨csv_rows hn hk h,?_⟩
    rw [csv_eq (csv_inArrays h)] at h
    obtain ⟨totals,ht,rfl⟩ := Option.map_eq_some_iff.mp h
    exact ht

theorem dashCommand_size :
    (#[99,97,116,45,55,0,0,0,0,0,0,0,0,0,0,0] : Array UInt8).size = 16 := by decide

def dashCommand : Vector UInt8 16 := ⟨#[99,97,116,45,55,0,0,0,0,0,0,0,0,0,0,0],dashCommand_size⟩

def sampleEntries : Entries :=
  [(writeKey,⟨3,200⟩),({ writeKey with command := dashCommand, op := 2 },⟨2,90⟩),
    ({ writeKey with pid := 77 },⟨5,100⟩),({ writeKey with op := 2 },⟨0,0⟩)]

theorem report_exact_sample : ∃ report, writeResultsToCsv sampleEntries = some report ∧
    (∀ e ∈ sampleEntries, Named e.1) ∧ report.rows.Perm
      ((sampleEntries.filter (fun e => 0 < long e.2.count)).map (fun e => rowOf e.1 e.2)) ∧
    totalLine ([1,2].map (column sampleEntries)) = some report.totals ∧
    (column sampleEntries 1).count.toNat = 8 := by
  have hk : ∀ e ∈ sampleEntries, Named e.1 := by decide +kernel
  have hn : (sampleEntries.map Prod.fst).Nodup := by decide +kernel
  have ho : opsOf sampleEntries = [1,2] := by decide +kernel
  have hsum : columnShare sampleEntries 1 CounterValue.count = 8 := by decide +kernel
  have htraps : ∀ op ∈ opsOf sampleEntries, ¬ Traps (column sampleEntries op) := by
    rw [ho,List.forall_mem_cons,List.forall_mem_singleton]
    exact ⟨by decide +kernel,by decide +kernel⟩
  obtain ⟨hsome,hall,hcolumn⟩ := report_exact sampleEntries hn hk
  obtain ⟨report,hreport⟩ := Option.isSome_iff_exists.mp
    (hsome.mpr ⟨by decide +kernel,htraps⟩)
  obtain ⟨hrows,htotals⟩ := hall report hreport
  rw [ho] at htotals
  refine ⟨report,hreport,hk,hrows,htotals,?_⟩
  rw [(hcolumn 1).1,hsum]
  decide

/-! ## The report of a run -/

section Run

open ArchivalDedup.FiniteTable ArchivalDedup.Interleaving

variable {pids : Finset UInt32} {acts : List Action} {s : State}

def countedCalls (s : State) (key : CounterKey) : ℕ := s.found.count key-entriesOf s.lost key

def countedTime (s : State) (key : CounterKey) : ℕ := total s.deltas key-total s.lost key

theorem stored_counted (hr : exec step (start pids) acts = some s) (hq : s.running = [])
    (hf : Fits s) (key : CounterKey) : long (stored s key).count = countedCalls s key ∧
      long (stored s key).timeSum = countedTime s key := by
  obtain ⟨⟨n,hn,hcount⟩,⟨t,ht,htime⟩,_⟩ := run_accounted pids hr key
  obtain ⟨hsmall,hsmall'⟩ := hf key
  rw [hq,List.map_nil,List.sum_nil,Nat.add_zero] at hcount htime
  have hn' : (stored s key).count.toNat = countedCalls s key := by
    unfold countedCalls
    omega
  have ht' : (stored s key).timeSum.toNat = countedTime s key := by
    unfold countedTime
    omega
  have hc : countedCalls s key ≤ s.found.count key := Nat.sub_le ..
  have hd : countedTime s key ≤ total s.deltas key := Nat.sub_le ..
  rw [long_small (by omega),long_small (by omega),hn',ht']
  exact ⟨rfl,rfl⟩

/-- In every run, once no call is under way, the lines of the file are the counted
calls: one for each process, command and system call with at least one, with their
number and their average time, to which every call contributes one measurement. -/
theorem run_report (hr : exec step (start pids) acts = some s) (hq : s.running = []) (hf : Fits s)
    (entries : Entries) (hp : entries.Perm (s.counters.entries.map (fun e => (e.1,e.2))))
    (hk : ∀ e ∈ entries, Named e.1) (report : Report)
    (hw : writeResultsToCsv entries = some report) :
    report.rows.Perm
      ((s.found.dedup.filter (fun k => 0 < countedCalls s k)).map (fun k =>
        ⟨label k,k.op,countedCalls s k,(countedTime s k : ℤ).tdiv (countedCalls s k)⟩)) ∧
    ∀ key, entriesOf s.deltas key = s.found.count key := by
  refine ⟨?_,run_deltas pids hr hq⟩
  have hkeys : (entries.map Prod.fst).Perm (s.counters.entries.map Sigma.fst) := by
    have := hp.map Prod.fst
    rwa [List.map_map] at this
  have hn : (entries.map Prod.fst).Nodup := hkeys.nodup_iff.mpr s.counters.nodupKeys
  have hstored : ∀ e ∈ entries, stored s e.1 = e.2 := by
    intro e he
    obtain ⟨x,hx,rfl⟩ := List.mem_map.mp (hp.mem_iff.mp he)
    have hfind := (mem_entries_iff s.counters x.1 x.2).mp hx
    simp only [stored,hfind,Option.getD_some]
  have hvalue := stored_counted hr hq hf
  have hrow : ∀ e ∈ entries.filter (fun e => 0 < long e.2.count), rowOf e.1 e.2 =
      ⟨label e.1,e.1.op,countedCalls s e.1,
        (countedTime s e.1 : ℤ).tdiv (countedCalls s e.1)⟩ := by
    intro e he
    obtain ⟨hc,ht⟩ := hvalue e.1
    rw [hstored e (List.mem_of_mem_filter he)] at hc ht
    unfold rowOf Cell.row
    simp only
    rw [hc,ht]
  have hlisted : ((entries.filter (fun e => 0 < long e.2.count)).map Prod.fst).Perm
      (s.found.dedup.filter (fun k => 0 < countedCalls s k)) := by
    refine (List.perm_ext_iff_of_nodup (hn.sublist (List.filter_sublist.map _))
      (s.found.nodup_dedup.filter _)).mpr ?_
    intro k
    obtain ⟨hc,_⟩ := hvalue k
    simp only [List.mem_map,List.mem_filter,decide_eq_true_eq,List.mem_dedup]
    constructor
    · rintro ⟨e,⟨he,hpos⟩,rfl⟩
      rw [hstored e he] at hc
      have hpos' : 0 < countedCalls s e.1 := by omega
      exact ⟨List.count_pos_iff.mp (hpos'.trans_le (Nat.sub_le ..)),hpos'⟩
    · rintro ⟨_,hpos⟩
      cases hfind : find s.counters k with
      | none =>
        rw [stored,hfind] at hc
        have hz : long 0 = countedCalls s k := hc
        rw [show long 0 = 0 from rfl] at hz
        omega
      | some v =>
        have hv : stored s k = v := by rw [stored,hfind,Option.getD_some]
        rw [hv] at hc
        have hmem : (⟨k,v⟩ : Sigma fun _ : CounterKey => CounterValue) ∈ s.counters.entries :=
          (mem_entries_iff s.counters k v).mpr hfind
        have hcount : 0 < long v.count := by omega
        exact ⟨(k,v),⟨hp.mem_iff.mpr (List.mem_map.mpr ⟨_,hmem,rfl⟩),hcount⟩,rfl⟩
  have hrows := csv_rows hn hk hw
  rw [List.map_congr_left hrow] at hrows
  have hmapped := hlisted.map (fun k => (⟨label k,k.op,countedCalls s k,
    (countedTime s k : ℤ).tdiv (countedCalls s k)⟩ : Row))
  rw [List.map_map] at hmapped
  exact hrows.trans hmapped

theorem run_report_firstAlone : ∃ s report, exec step (start {7}) firstAlone = some s ∧
    s.running = [] ∧ Fits s ∧ (∀ e ∈ s.counters.entries, Named e.1) ∧
    s.found = [writeKey,writeKey,writeKey] ∧
    writeResultsToCsv (s.counters.entries.map (fun e => (e.1,e.2))) = some report ∧
    report.rows.Perm
      ((s.found.dedup.filter (fun k => 0 < countedCalls s k)).map (fun k =>
        ⟨label k,k.op,countedCalls s k,(countedTime s k : ℤ).tdiv (countedCalls s k)⟩)) ∧
    entriesOf s.deltas writeKey = 3 := by
  obtain ⟨s,hr,hs⟩ := exec_observe step (fun s => s.running = [] ∧ s.found.length < 2^63 ∧
    (s.deltas.map (fun e => e.2.toNat)).sum < 2^63 ∧ (∀ e ∈ s.counters.entries, Named e.1) ∧
    s.found = [writeKey,writeKey,writeKey] ∧
    (writeResultsToCsv (s.counters.entries.map (fun e => (e.1,e.2)))).isSome = true)
    (start {7}) firstAlone (by decide +kernel)
  obtain ⟨hq,hfound,hdeltas,hk,hcalls,hsome⟩ := of_decide_eq_true hs
  have hf := fits_of_small hfound hdeltas
  obtain ⟨report,hw⟩ := Option.isSome_iff_exists.mp hsome
  have hnamed : ∀ e ∈ s.counters.entries.map (fun e => (e.1,e.2)), Named e.1 := by
    intro e he
    obtain ⟨x,hx,rfl⟩ := List.mem_map.mp he
    exact hk x hx
  obtain ⟨hrows,hdelta⟩ := run_report hr hq hf _ (List.Perm.refl _) hnamed report hw
  refine ⟨s,report,hr,hq,hf,hk,hcalls,hw,hrows,(hdelta writeKey).trans ?_⟩
  rw [hcalls]
  decide

end Run

end ArchivalDedup.CounterReport
