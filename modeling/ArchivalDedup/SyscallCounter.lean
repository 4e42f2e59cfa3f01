import Mathlib.Algebra.Group.Int.Defs
import Mathlib.Algebra.Order.Ring.Nat
import Mathlib.Data.Finset.Insert
import ArchivalDedup.Library.FiniteTable
import ArchivalDedup.Library.Interleaving

/-!
# The syscall counter

The probes run on every CPU at once. A probe on entry stores a timestamp under
its thread; the one on exit takes it away and adds the difference to the counter
of its process, command and system call. Each operation on a map is a step of its
own, and the maps are never full. A counter is created or increased depending on a
lookup made two operations before, so a second first event of a key is lost.
-/

set_option autoImplicit false

namespace ArchivalDedup.SyscallCounter
open ArchivalDedup.FiniteTable ArchivalDedup.Interleaving

structure CounterKey where
  command : Vector UInt8 16
  pid : UInt32
  op : UInt32
deriving DecidableEq

/-- The two words of a counter; both are read as a `long`. -/
structure CounterValue where
  count : UInt64
  timeSum : UInt64
deriving DecidableEq

def long (w : UInt64) : ℤ := if w.toNat < 2^63 then w.toNat else (w.toNat : ℤ)-2^64

/-- The three maps. An entry of `enter_timestamps` is an element of memory that is
used again after a deletion, and a pointer to it may still be held then. -/
structure Maps where
  pidsToConsider : Finset UInt32
  enterTimestamps : Table UInt32 ℕ
  element : ℕ → UInt64
  counters : Table CounterKey CounterValue

inductive Stage where
  | deleteEnter (enterTime : ℕ)
  | lookupCounter (enterTime : ℕ)
  | measure (enterTime : ℕ) (known : Bool)
  | insertNew (delta : UInt64)
  | addTime (delta : UInt64)
  | addCount
deriving DecidableEq

structure Handler where
  tid : UInt32
  key : CounterKey
  stage : Stage
deriving DecidableEq

/-- The maps and the calls under way. The last three fields are history: the key of
every call that found a timestamp, the deltas of these calls, and those that an
insertion dropped. -/
structure State extends Maps where
  running : List Handler
  found : List CounterKey
  deltas : List (CounterKey × UInt64)
  lost : List (CounterKey × UInt64)

def toDiscard (m : Maps) (pid : UInt32) : Bool := decide (pid ∉ m.pidsToConsider)

inductive Probe where
  | openat
  | write
  | pwrite64
  | read
  | pread64
  | close
  | unlink
deriving DecidableEq

/-- On entry there is no descriptor yet for `openat`, and none for `unlink`. -/
def Probe.checksFile : Probe → Bool
  | .openat => false
  | .unlink => false
  | _ => true

/-- The element is one that the map does not use. -/
def updateCounterEnter (tid : UInt32) (timestamp : UInt64) (elem : ℕ) (s : State) : Option State :=
  if elem ∈ s.enterTimestamps.entries.map Sigma.snd then none
  else some { s with
    enterTimestamps := s.enterTimestamps.insert tid elem
    element := Function.update s.element elem timestamp }

def sysEnter (p : Probe) (pid tid : UInt32) (regular : Bool) (timestamp : UInt64) (elem : ℕ)
    (s : State) : Option State :=
  if toDiscard s.toMaps pid then some s
  else if p.checksFile && !regular then some s
  else updateCounterEnter tid timestamp elem s

/-- The first operation; without a timestamp it is the last. -/
def updateCounterExit (key : CounterKey) (tid : UInt32) (s : State) : State :=
  match find s.enterTimestamps tid with
  | none => s
  | some e => { s with
      running := s.running++[⟨tid,key,.deleteEnter e⟩]
      found := key::s.found }

def sysExit (p : Probe) (pid tid op : UInt32) (command : Vector UInt8 16) (irregular : Bool)
    (s : State) : State :=
  if toDiscard s.toMaps pid then s
  else if p = .openat && irregular then { s with enterTimestamps := s.enterTimestamps.erase tid }
  else updateCounterExit ⟨command,pid,op⟩ tid s

def traceSchedProcessFork (parent child : UInt32) (s : State) : State :=
  if toDiscard s.toMaps parent then s
  else { s with pidsToConsider := insert child s.pidsToConsider }

/-- The next operation of the call at position `i`. Counters are never deleted, so
the pointer that the lookup returned is the entry of the key. -/
def resume (s : State) (i : ℕ) (timestamp : UInt64) (h : Handler) : Option State :=
  match h.stage with
  | .deleteEnter e => some { s with
      enterTimestamps := s.enterTimestamps.erase h.tid
      running := s.running.set i { h with stage := .lookupCounter e } }
  | .lookupCounter e => some { s with
      running := s.running.set i { h with stage := .measure e (find s.counters h.key).isSome } }
  | .measure e known =>
    let delta := timestamp-s.element e
    some { s with
      running := s.running.set i { h with stage := if known then .addTime delta else .insertNew delta }
      deltas := (h.key,delta)::s.deltas }
  | .insertNew delta =>
    match find s.counters h.key with
    | none => some { s with
        counters := s.counters.insert h.key ⟨1,delta⟩
        running := s.running.eraseIdx i }
    -- `BPF_NOEXIST`: the insertion fails, and nobody looks at its result
    | some _ => some { s with
        running := s.running.eraseIdx i
        lost := (h.key,delta)::s.lost }
  | .addTime delta => (find s.counters h.key).map (fun v => { s with
      counters := s.counters.insert h.key { v with timeSum := v.timeSum+delta }
      running := s.running.set i { h with stage := .addCount } })
  | .addCount => (find s.counters h.key).map (fun v => { s with
      counters := s.counters.insert h.key { v with count := v.count+1 }
      running := s.running.eraseIdx i })

inductive Action where
  | enter (p : Probe) (pid tid : UInt32) (regular : Bool) (timestamp : UInt64) (elem : ℕ)
  | exit (p : Probe) (pid tid op : UInt32) (command : Vector UInt8 16) (irregular : Bool)
  | fork (parent child : UInt32)
  | advance (i : ℕ) (timestamp : UInt64)

def step (s : State) : Action → Option State
  | .enter p pid tid regular timestamp elem => sysEnter p pid tid regular timestamp elem s
  | .exit p pid tid op command irregular => some (sysExit p pid tid op command irregular s)
  | .fork parent child => some (traceSchedProcessFork parent child s)
  | .advance i timestamp => (s.running[i]?).bind (resume s i timestamp)

def start (pids : Finset UInt32) : State := ⟨⟨pids,∅,fun _ => 0,∅⟩,[],[],[],[]⟩

/-- A step of a probe starts a call or touches neither the calls nor the counters;
every other step is the next operation of a call. -/
theorem step_cases {s t : State} {a : Action} (ht : step s a = some t) :
    (∃ i timestamp h, a = .advance i timestamp ∧ s.running[i]? = some h ∧
      resume s i timestamp h = some t) ∨
    (∀ i timestamp, a ≠ .advance i timestamp) ∧
      ((∃ m : Maps, t = { s with toMaps := m } ∧ m.counters = s.counters) ∨
        ∃ h e, h.stage = .deleteEnter e ∧
          t = { s with running := s.running++[h], found := h.key::s.found }) := by
  cases a with
  | enter p pid tid regular timestamp elem =>
    refine Or.inr ⟨(fun _ _ hne => by cases hne),Or.inl ?_⟩
    simp only [step,sysEnter,updateCounterEnter] at ht
    split_ifs at ht
    · exact ⟨s.toMaps,(Option.some.inj ht).symm,rfl⟩
    · exact ⟨s.toMaps,(Option.some.inj ht).symm,rfl⟩
    · exact ⟨_,(Option.some.inj ht).symm,rfl⟩
  | exit p pid tid op command irregular =>
    refine Or.inr ⟨(fun _ _ hne => by cases hne),?_⟩
    simp only [step,sysExit,updateCounterExit,Option.some.injEq] at ht
    split_ifs at ht
    · exact Or.inl ⟨s.toMaps,ht.symm,rfl⟩
    · exact Or.inl ⟨_,ht.symm,rfl⟩
    · cases hf : find s.enterTimestamps tid with
      | none =>
        rw [hf] at ht
        exact Or.inl ⟨s.toMaps,ht.symm,rfl⟩
      | some e =>
        rw [hf] at ht
        exact Or.inr ⟨⟨tid,⟨command,pid,op⟩,.deleteEnter e⟩,e,rfl,ht.symm⟩
  | fork parent child =>
    refine Or.inr ⟨(fun _ _ hne => by cases hne),Or.inl ?_⟩
    simp only [step,traceSchedProcessFork,Option.some.injEq] at ht
    split_ifs at ht
    · exact ⟨s.toMaps,ht.symm,rfl⟩
    · exact ⟨_,ht.symm,rfl⟩
  | advance i timestamp =>
    obtain ⟨h,hi,ht⟩ := Option.bind_eq_some_iff.mp ht
    exact Or.inl ⟨i,timestamp,h,rfl,hi,ht⟩

/-! ## Accounts -/

def stored (s : State) (key : CounterKey) : CounterValue := (find s.counters key).getD ⟨0,0⟩

def entriesOf (log : List (CounterKey × UInt64)) (key : CounterKey) : ℕ :=
  log.countP (fun e => decide (e.1 = key))

def total (log : List (CounterKey × UInt64)) (key : CounterKey) : ℕ :=
  (log.map (fun e => if e.1 = key then e.2.toNat else 0)).sum

def Handler.event (key : CounterKey) (h : Handler) : ℕ := if h.key = key then 1 else 0

def Handler.owed (key : CounterKey) (h : Handler) : ℕ :=
  if h.key = key then
    match h.stage with
    | .insertNew delta => delta.toNat
    | .addTime delta => delta.toNat
    | _ => 0
  else 0

def Handler.unmeasured (key : CounterKey) (h : Handler) : ℕ :=
  if h.key = key then
    match h.stage with
    | .deleteEnter _ => 1
    | .lookupCounter _ => 1
    | .measure .. => 1
    | _ => 0
  else 0

/-- Every event is counted, under way or lost, and so is every delta; each event has
one delta. -/
structure EventsAccounted (s : State) (key : CounterKey) : Prop where
  count : ∃ n, (stored s key).count.toNat = n % 2^64 ∧
    n+(s.running.map (Handler.event key)).sum+entriesOf s.lost key = s.found.count key
  time : ∃ t, (stored s key).timeSum.toNat = t % 2^64 ∧
    t+(s.running.map (Handler.owed key)).sum+total s.lost key = total s.deltas key
  measured : entriesOf s.deltas key+(s.running.map (Handler.unmeasured key)).sum = s.found.count key

theorem accounted_start (pids : Finset UInt32) (key : CounterKey) : EventsAccounted (start pids) key where
  count := ⟨0,rfl,rfl⟩
  time := ⟨0,rfl,rfl⟩
  measured := rfl

theorem entriesOf_cons (e : CounterKey × UInt64) (log : List (CounterKey × UInt64))
    (key : CounterKey) :
    entriesOf (e::log) key = entriesOf log key+if e.1 = key then 1 else 0 := by
  rw [entriesOf,List.countP_cons,entriesOf]
  simp

theorem total_cons (e : CounterKey × UInt64) (log : List (CounterKey × UInt64))
    (key : CounterKey) :
    total (e::log) key = total log key+if e.1 = key then e.2.toNat else 0 := by
  rw [total,List.map_cons,List.sum_cons,Nat.add_comm]
  rfl

section Steps

variable {s t : State} {i : ℕ} {timestamp : UInt64} {h : Handler} {key : CounterKey}

theorem stored_insert (v : CounterValue) (rest : List Handler) :
    stored { s with counters := s.counters.insert h.key v, running := rest } key =
      if key = h.key then v else stored s key := by
  unfold stored
  rw [find_insert]
  split_ifs <;> rfl

theorem accounted_replace (ha : EventsAccounted s key) (hi : s.running[i]? = some h) {stage : Stage}
    (howed : Handler.owed key { h with stage := stage } = h.owed key)
    (hun : Handler.unmeasured key { h with stage := stage } = h.unmeasured key) :
    EventsAccounted { s with running := s.running.set i { h with stage := stage } } key := by
  obtain ⟨⟨n,hn,hcount⟩,⟨m,hm,htime⟩,hmeasured⟩ := ha
  obtain ⟨e₁,e₂⟩ := sum_parties (Handler.event key) s.running i h { h with stage := stage } hi
  obtain ⟨o₁,o₂⟩ := sum_parties (Handler.owed key) s.running i h { h with stage := stage } hi
  obtain ⟨u₁,u₂⟩ := sum_parties (Handler.unmeasured key) s.running i h { h with stage := stage } hi
  have hevent : Handler.event key { h with stage := stage } = h.event key := rfl
  refine ⟨⟨n,hn,?_⟩,⟨m,hm,?_⟩,?_⟩
  · dsimp only
    omega
  · dsimp only
    omega
  · dsimp only
    omega

theorem accounted_measure (ha : EventsAccounted s key) (hi : s.running[i]? = some h) {e : ℕ} {known : Bool}
    (hst : h.stage = .measure e known) (delta : UInt64) :
    EventsAccounted { s with
      running := s.running.set i { h with stage := if known then .addTime delta else .insertNew delta }
      deltas := (h.key,delta)::s.deltas } key := by
  obtain ⟨⟨n,hn,hcount⟩,⟨m,hm,htime⟩,hmeasured⟩ := ha
  generalize hnext : { h with stage := if known then Stage.addTime delta else .insertNew delta } = h'
  obtain ⟨e₁,e₂⟩ := sum_parties (Handler.event key) s.running i h h' hi
  obtain ⟨o₁,o₂⟩ := sum_parties (Handler.owed key) s.running i h h' hi
  obtain ⟨u₁,u₂⟩ := sum_parties (Handler.unmeasured key) s.running i h h' hi
  have hevent : h'.event key = h.event key := by
    rw [←hnext]
    rfl
  have howed : h.owed key = 0 ∧ h'.owed key = if h.key = key then delta.toNat else 0 := by
    rw [←hnext]
    exact ⟨by simp [Handler.owed,hst],by cases known <;> rfl⟩
  have hun : h.unmeasured key = (if h.key = key then 1 else 0) ∧ h'.unmeasured key = 0 := by
    rw [←hnext]
    exact ⟨by simp [Handler.unmeasured,hst],by cases known <;> exact ite_self 0⟩
  refine ⟨⟨n,hn,?_⟩,⟨m,hm,?_⟩,?_⟩
  · dsimp only
    omega
  · dsimp only
    rw [total_cons]
    dsimp only
    omega
  · dsimp only
    rw [entriesOf_cons]
    dsimp only
    omega

theorem accounted_found (ha : EventsAccounted s key) (h : Handler) (e : ℕ)
    (hst : h.stage = .deleteEnter e) :
    EventsAccounted { s with running := s.running++[h], found := h.key::s.found } key := by
  obtain ⟨⟨n,hn,hcount⟩,⟨m,hm,htime⟩,hmeasured⟩ := ha
  have hcons : (h.key::s.found).count key = s.found.count key+if h.key = key then 1 else 0 := by
    rw [List.count_cons]
    simp only [beq_iff_eq]
  have hlast : ∀ f : Handler → ℕ, ((s.running++[h]).map f).sum = (s.running.map f).sum+f h := by
    intro f
    simp
  have hevent : h.event key = if h.key = key then 1 else 0 := rfl
  have howed : h.owed key = 0 := by simp [Handler.owed,hst]
  have hun : h.unmeasured key = if h.key = key then 1 else 0 := by simp [Handler.unmeasured,hst]
  refine ⟨⟨n,hn,?_⟩,⟨m,hm,?_⟩,?_⟩
  · dsimp only
    rw [hcons,hlast]
    omega
  · dsimp only
    rw [hlast]
    omega
  · dsimp only
    rw [hcons,hlast]
    omega

theorem accounted_write (ha : EventsAccounted s key) (v : CounterValue) (rest : List Handler) (n t : ℕ)
    (hcount : v.count.toNat = ((stored s h.key).count.toNat+n) % 2^64)
    (htime : v.timeSum.toNat = ((stored s h.key).timeSum.toNat+t) % 2^64)
    (hevent : (s.running.map (Handler.event key)).sum =
      (rest.map (Handler.event key)).sum+if h.key = key then n else 0)
    (howed : (s.running.map (Handler.owed key)).sum =
      (rest.map (Handler.owed key)).sum+if h.key = key then t else 0)
    (hun : (s.running.map (Handler.unmeasured key)).sum = (rest.map (Handler.unmeasured key)).sum) :
    EventsAccounted { s with counters := s.counters.insert h.key v, running := rest } key := by
  obtain ⟨⟨n₀,hn,hcount₀⟩,⟨t₀,ht,htime₀⟩,hmeasured⟩ := ha
  by_cases hk : h.key = key
  · subst hk
    rw [if_pos rfl] at hevent howed
    have hv : stored { s with counters := s.counters.insert h.key v, running := rest } h.key = v := by
      rw [stored_insert,if_pos rfl]
    refine ⟨⟨n₀+n,?_,?_⟩,⟨t₀+t,?_,?_⟩,?_⟩
    · rw [hv]
      omega
    · dsimp only
      omega
    · rw [hv]
      omega
    · dsimp only
      omega
    · exact hun ▸ hmeasured
  · rw [if_neg hk] at hevent howed
    have hv : stored { s with counters := s.counters.insert h.key v, running := rest } key =
        stored s key := by
      rw [stored_insert,if_neg (Ne.symm hk)]
    refine ⟨⟨n₀,?_,?_⟩,⟨t₀,?_,?_⟩,?_⟩
    · rw [hv]
      exact hn
    · dsimp only
      omega
    · rw [hv]
      exact ht
    · dsimp only
      omega
    · exact hun ▸ hmeasured

theorem accounted_drop (ha : EventsAccounted s key) (hi : s.running[i]? = some h) {delta : UInt64}
    (hst : h.stage = .insertNew delta) :
    EventsAccounted { s with
      running := s.running.eraseIdx i
      lost := (h.key,delta)::s.lost } key := by
  obtain ⟨⟨n,hn,hcount⟩,⟨m,hm,htime⟩,hmeasured⟩ := ha
  obtain ⟨e₁,_⟩ := sum_parties (Handler.event key) s.running i h h hi
  obtain ⟨o₁,_⟩ := sum_parties (Handler.owed key) s.running i h h hi
  obtain ⟨u₁,_⟩ := sum_parties (Handler.unmeasured key) s.running i h h hi
  have howed : h.owed key = if h.key = key then delta.toNat else 0 := by
    rw [Handler.owed,hst]
  have hevent : h.event key = if h.key = key then 1 else 0 := rfl
  have hun : h.unmeasured key = 0 := by simp [Handler.unmeasured,hst]
  refine ⟨⟨n,hn,?_⟩,⟨m,hm,?_⟩,?_⟩
  · dsimp only
    rw [entriesOf_cons]
    dsimp only
    omega
  · dsimp only
    rw [total_cons]
    dsimp only
    omega
  · dsimp only
    omega

theorem accounted_resume (ha : EventsAccounted s key) (hi : s.running[i]? = some h)
    (ht : resume s i timestamp h = some t) : EventsAccounted t key := by
  obtain ⟨e₁,e₂⟩ := sum_parties (Handler.event key) s.running i h { h with stage := .addCount } hi
  obtain ⟨o₁,o₂⟩ := sum_parties (Handler.owed key) s.running i h { h with stage := .addCount } hi
  obtain ⟨u₁,u₂⟩ := sum_parties (Handler.unmeasured key) s.running i h { h with stage := .addCount } hi
  have hafter : Handler.unmeasured key { h with stage := .addCount } = 0 := ite_self 0
  unfold resume at ht
  cases hst : h.stage with
  | deleteEnter e =>
    rw [hst] at ht
    cases ht
    have howed : Handler.owed key { h with stage := .lookupCounter e } = h.owed key := by
      simp [Handler.owed,hst]
    have hnext := accounted_replace ha hi howed (by simp [Handler.unmeasured,hst])
    exact ⟨hnext.count,hnext.time,hnext.measured⟩
  | lookupCounter e =>
    rw [hst] at ht
    cases ht
    exact accounted_replace ha hi (by simp [Handler.owed,hst]) (by simp [Handler.unmeasured,hst])
  | measure e known =>
    rw [hst] at ht
    cases ht
    exact accounted_measure ha hi hst _
  | insertNew delta =>
    rw [hst] at ht
    dsimp only at ht
    have howed : h.owed key = if h.key = key then delta.toNat else 0 := by
      rw [Handler.owed,hst]
    cases hf : find s.counters h.key with
    | none =>
      rw [hf] at ht
      cases ht
      have hz : stored s h.key = ⟨0,0⟩ := by
        rw [stored,hf]
        rfl
      have hun : h.unmeasured key = 0 := by simp [Handler.unmeasured,hst]
      refine accounted_write ha ⟨1,delta⟩ (s.running.eraseIdx i) 1 delta.toNat ?_ ?_ ?_ ?_ ?_
      · rw [hz]
        rfl
      · rw [hz]
        exact (Nat.mod_eq_of_lt (by simpa using delta.toNat_lt)).symm.trans (by simp)
      · rw [e₁,Nat.add_comm]
        rfl
      · rw [o₁,Nat.add_comm,howed]
      · rw [u₁,hun,Nat.zero_add]
    | some v =>
      rw [hf] at ht
      cases ht
      exact accounted_drop ha hi hst
  | addTime delta =>
    rw [hst] at ht
    obtain ⟨v,hf,rfl⟩ := Option.map_eq_some_iff.mp ht
    have hv : stored s h.key = v := by
      rw [stored,hf]
      rfl
    have howed : h.owed key = if h.key = key then delta.toNat else 0 := by
      rw [Handler.owed,hst]
    have hdone : Handler.owed key { h with stage := .addCount } = 0 := ite_self 0
    have hevent : Handler.event key { h with stage := .addCount } = h.event key := rfl
    have hun : h.unmeasured key = 0 := by simp [Handler.unmeasured,hst]
    refine accounted_write ha { v with timeSum := v.timeSum+delta }
      (s.running.set i { h with stage := .addCount }) 0 delta.toNat ?_ ?_ ?_ ?_ ?_
    · rw [hv]
      exact (Nat.mod_eq_of_lt v.count.toNat_lt).symm
    · rw [hv]
      exact UInt64.toNat_add ..
    · rw [e₁,e₂,hevent,ite_self,Nat.add_zero]
    · rw [o₁,o₂,hdone,howed,Nat.zero_add,Nat.add_comm]
    · rw [u₁,u₂,hun,hafter]
  | addCount =>
    rw [hst] at ht
    obtain ⟨v,hf,rfl⟩ := Option.map_eq_some_iff.mp ht
    have hv : stored s h.key = v := by
      rw [stored,hf]
      rfl
    have hdone : h.owed key = 0 := by simp [Handler.owed,hst]
    have hun : h.unmeasured key = 0 := by simp [Handler.unmeasured,hst]
    refine accounted_write ha { v with count := v.count+1 } (s.running.eraseIdx i) 1 0 ?_ ?_ ?_ ?_ ?_
    · rw [hv]
      exact UInt64.toNat_add ..
    · rw [hv]
      exact (Nat.mod_eq_of_lt v.timeSum.toNat_lt).symm
    · rw [e₁,Nat.add_comm]
      rfl
    · rw [o₁,hdone,ite_self,Nat.add_zero,Nat.zero_add]
    · rw [u₁,hun,Nat.zero_add]

theorem accounted_step (ha : EventsAccounted s key) {a : Action} (ht : step s a = some t) :
    EventsAccounted t key := by
  obtain ⟨i,timestamp,h,_,hi,ht⟩ | ⟨_,⟨m,rfl,hm⟩ | ⟨h,e,hst,rfl⟩⟩ := step_cases ht
  · exact accounted_resume ha hi ht
  · have hsame : stored { s with toMaps := m } key = stored s key := by
      unfold stored
      rw [hm]
    refine ⟨?_,?_,ha.measured⟩
    · rw [hsame]
      exact ha.count
    · rw [hsame]
      exact ha.time
  · exact accounted_found ha h e hst

/-! ## Lost events -/

def Stage.inserts : Stage → Bool
  | .insertNew _ => true
  | _ => false

/-- An insertion with `BPF_NOEXIST` finds its key absent. -/
def FindsAbsent (s : State) : Action → Prop
  | .advance i _ => ∀ h ∈ s.running[i]?, h.stage.inserts = true → find s.counters h.key = none
  | _ => True

instance decidableFindsAbsent (s : State) : ∀ a, Decidable (FindsAbsent s a)
  | .advance i _ => inferInstanceAs
      (Decidable (∀ h ∈ s.running[i]?, h.stage.inserts = true → find s.counters h.key = none))
  | .enter .. => isTrue trivial
  | .exit .. => isTrue trivial
  | .fork .. => isTrue trivial

theorem resume_lost (hi : s.running[i]? = some h) (ht : resume s i timestamp h = some t) :
    t.lost = [] ↔ s.lost = [] ∧ FindsAbsent s (.advance i timestamp) := by
  have habsent : FindsAbsent s (.advance i timestamp) ↔
      (h.stage.inserts = true → find s.counters h.key = none) := by
    simp [FindsAbsent,hi]
  rw [habsent]
  unfold resume at ht
  cases hst : h.stage with
  | insertNew delta =>
    rw [hst] at ht
    dsimp only at ht
    cases hf : find s.counters h.key with
    | none =>
      rw [hf] at ht
      cases ht
      exact (and_iff_left (fun _ => rfl)).symm
    | some v =>
      rw [hf] at ht
      cases ht
      simp [Stage.inserts]
  | addTime delta =>
    rw [hst] at ht
    obtain ⟨v,_,rfl⟩ := Option.map_eq_some_iff.mp ht
    exact (and_iff_left (fun hin => by cases hin)).symm
  | addCount =>
    rw [hst] at ht
    obtain ⟨v,_,rfl⟩ := Option.map_eq_some_iff.mp ht
    exact (and_iff_left (fun hin => by cases hin)).symm
  | _ =>
    rw [hst] at ht
    cases ht
    exact (and_iff_left (fun hin => by cases hin)).symm

theorem step_lost {a : Action} (ht : step s a = some t) :
    t.lost = [] ↔ s.lost = [] ∧ FindsAbsent s a := by
  obtain ⟨i,timestamp,h,rfl,hi,ht⟩ | ⟨hne,hprobe⟩ := step_cases ht
  · exact resume_lost hi ht
  · have hfree : FindsAbsent s a := by
      cases a with
      | advance i timestamp => exact absurd rfl (hne i timestamp)
      | _ => trivial
    have hsame : t.lost = s.lost := by
      obtain ⟨m,rfl,_⟩ | ⟨h,e,_,rfl⟩ := hprobe
      · rfl
      · rfl
    rw [hsame]
    exact (and_iff_left hfree).symm

end Steps

section Runs

variable (pids : Finset UInt32) {acts : List Action} {s : State}

theorem run_accounted (hr : exec step (start pids) acts = some s) (key : CounterKey) :
    EventsAccounted s key :=
  exec_preserves step (fun s => EventsAccounted s key) (fun _ _ _ ha ht => accounted_step ha ht)
    (start pids) s acts (accounted_start pids key) hr

theorem run_lost (hr : exec step (start pids) acts = some s) :
    s.lost = [] ↔ Meets step FindsAbsent (start pids) acts :=
  (last_iff_meets step FindsAbsent (fun s => s.lost = []) (fun _ _ _ ht => step_lost ht)
    (start pids) s acts hr).trans (and_iff_right rfl)

theorem run_deltas (hr : exec step (start pids) acts = some s) (hq : s.running = [])
    (key : CounterKey) : entriesOf s.deltas key = s.found.count key := by
  have := (run_accounted pids hr key).measured
  rwa [hq,List.map_nil,List.sum_nil,Nat.add_zero] at this

theorem long_le (w : UInt64) : long w ≤ w.toNat ∧ long w < 2^63 := by
  have := w.toNat_lt
  unfold long
  split_ifs <;> omega

theorem long_small {w : UInt64} (h : w.toNat < 2^63) : long w = w.toNat := if_pos h

theorem lost_entry {log : List (CounterKey × UInt64)} {e : CounterKey × UInt64} (he : e ∈ log) :
    0 < entriesOf log e.1 :=
  List.countP_pos_iff.mpr ⟨e,he,by simp⟩

/-- The counters tell how many calls found a timestamp and how long they took. -/
def CountersExact (s : State) : Prop :=
  ∀ key, long (stored s key).count = s.found.count key ∧
    long (stored s key).timeSum = total s.deltas key

/-- What there is to tell fits a `long`. -/
def Fits (s : State) : Prop := ∀ key, s.found.count key < 2^63 ∧ total s.deltas key < 2^63

/-- Whatever the interleaving, once no call is under way the counters are right
exactly when every insertion found its key absent and the totals fit. -/
theorem counters_exact_iff (hr : exec step (start pids) acts = some s) (hq : s.running = []) :
    CountersExact s ↔ Meets step FindsAbsent (start pids) acts ∧ Fits s := by
  rw [←run_lost pids hr]
  have hrest : ∀ f : Handler → ℕ, (s.running.map f).sum = 0 := by
    intro f
    rw [hq]
    rfl
  constructor
  · intro he
    constructor
    · rw [List.eq_nil_iff_forall_not_mem]
      intro e hmem
      obtain ⟨n,hn,hcount⟩ := (run_accounted pids hr e.1).count
      have hlost := lost_entry hmem
      have hle := (long_le (stored s e.1).count).1
      have heq := (he e.1).1
      have hevent := hrest (Handler.event e.1)
      omega
    · intro key
      have hcount := (long_le (stored s key).count).2
      have htime := (long_le (stored s key).timeSum).2
      have heq := he key
      omega
  · rintro ⟨hlost,hfits⟩ key
    obtain ⟨⟨n,hn,hcount⟩,⟨t,ht,htime⟩,_⟩ := run_accounted pids hr key
    have hevent := hrest (Handler.event key)
    have howed := hrest (Handler.owed key)
    have hsmall := hfits key
    have hnone : entriesOf s.lost key = 0 ∧ total s.lost key = 0 := by
      rw [hlost]
      exact ⟨rfl,rfl⟩
    have hn' : (stored s key).count.toNat = s.found.count key := by omega
    have ht' : (stored s key).timeSum.toNat = total s.deltas key := by omega
    rw [long_small (by omega),long_small (by omega),hn',ht']
    exact ⟨rfl,rfl⟩

theorem total_le (log : List (CounterKey × UInt64)) (key : CounterKey) :
    total log key ≤ (log.map (fun e => e.2.toNat)).sum := by
  induction log with
  | nil => exact Nat.le_refl 0
  | cons e log ih =>
    rw [total_cons,List.map_cons,List.sum_cons]
    split_ifs <;> omega

theorem fits_of_small (hfound : s.found.length < 2^63)
    (hdeltas : (s.deltas.map (fun e => e.2.toNat)).sum < 2^63) : Fits s := by
  intro key
  exact ⟨Nat.lt_of_le_of_lt List.count_le_length hfound,
    Nat.lt_of_le_of_lt (total_le s.deltas key) hdeltas⟩

def writeKey : CounterKey := ⟨#v[99,97,116,0,0,0,0,0,0,0,0,0,0,0,0,0],7,1⟩

def enterWrite (tid : UInt32) (timestamp : UInt64) (elem : ℕ) : Action :=
  .enter .write writeKey.pid tid true timestamp elem

def exitWrite (tid : UInt32) : Action :=
  .exit .write writeKey.pid tid writeKey.op writeKey.command false

def firstAlone : List Action :=
  [enterWrite 1 100 0,exitWrite 1,.advance 0 0,.advance 0 0,.advance 0 150,.advance 0 0,
    enterWrite 1 200 0,enterWrite 2 210 1,exitWrite 1,exitWrite 2,.advance 0 0,.advance 1 0,
    .advance 1 0,.advance 0 0,.advance 0 260,.advance 1 300,.advance 1 0,.advance 0 0,
    .advance 1 0,.advance 0 0]

theorem counters_exact_firstAlone : ∃ s, exec step (start {7}) firstAlone = some s ∧
    s.running = [] ∧ Meets step FindsAbsent (start {7}) firstAlone ∧ Fits s ∧
    find s.counters writeKey = some ⟨3,200⟩ ∧ CountersExact s := by
  obtain ⟨s,hr,hp⟩ := exec_observe step (fun s => s.running = [] ∧
    find s.counters writeKey = some ⟨3,200⟩ ∧ s.found.length < 2^63 ∧
    (s.deltas.map (fun e => e.2.toNat)).sum < 2^63) (start {7}) firstAlone (by decide +kernel)
  obtain ⟨hq,hv,hfound,hdeltas⟩ := of_decide_eq_true hp
  have hc : Meets step FindsAbsent (start {7}) firstAlone := by decide +kernel
  have hfits := fits_of_small hfound hdeltas
  exact ⟨s,hr,hq,hc,hfits,hv,(counters_exact_iff {7} hr hq).mpr ⟨hc,hfits⟩⟩

def bothFirst : List Action :=
  [enterWrite 1 100 0,enterWrite 2 110 1,exitWrite 1,exitWrite 2,.advance 0 0,.advance 1 0,
    .advance 0 0,.advance 1 0,.advance 0 150,.advance 1 170,.advance 0 0,.advance 0 0]

/-- Both see no counter; the second insertion fails, and its event is lost. -/
theorem second_first_event_lost : ∃ s, exec step (start {7}) bothFirst = some s ∧
    s.running = [] ∧ s.found.count writeKey = 2 ∧ find s.counters writeKey = some ⟨1,50⟩ ∧
    total s.deltas writeKey = 110 ∧ ¬ CountersExact s := by
  obtain ⟨s,hr,hp⟩ := exec_observe step (fun s => s.running = [] ∧ s.found.count writeKey = 2 ∧
    find s.counters writeKey = some ⟨1,50⟩ ∧ total s.deltas writeKey = 110) (start {7}) bothFirst
    (by decide +kernel)
  obtain ⟨hq,hfound,hv,hdeltas⟩ := of_decide_eq_true hp
  refine ⟨s,hr,hq,hfound,hv,hdeltas,?_⟩
  intro he
  have hcount := (he writeKey).1
  rw [stored,hv,hfound] at hcount
  exact absurd hcount (by decide)

end Runs

/-! ## Every call ends -/

section Progress

variable {s t : State} {i : ℕ} {timestamp : UInt64} {h : Handler}

def Stage.seen : Stage → Bool
  | .measure _ known => known
  | .addTime _ => true
  | .addCount => true
  | _ => false

def Backed (s : State) : Prop :=
  ∀ h ∈ s.running, h.stage.seen = true → (find s.counters h.key).isSome

def Stage.remaining : Stage → ℕ
  | .deleteEnter _ => 5
  | .lookupCounter _ => 4
  | .measure .. => 3
  | .addTime _ => 2
  | .insertNew _ => 1
  | .addCount => 1

def workLeft (running : List Handler) : ℕ := (running.map (fun h => h.stage.remaining)).sum

theorem work_set {running : List Handler} (hi : running[i]? = some h) {stage : Stage}
    (hlt : stage.remaining < h.stage.remaining) :
    workLeft (running.set i { h with stage := stage }) < workLeft running := by
  obtain ⟨h₁,h₂⟩ := sum_parties (fun h : Handler => h.stage.remaining) running i h
    { h with stage := stage } hi
  unfold workLeft
  rw [h₁,h₂]
  exact Nat.add_lt_add_right hlt _

theorem work_erase {running : List Handler} (hi : running[i]? = some h) :
    workLeft (running.eraseIdx i) < workLeft running := by
  obtain ⟨h₁,_⟩ := sum_parties (fun h : Handler => h.stage.remaining) running i h h hi
  have hpos : 0 < h.stage.remaining := by
    cases h.stage <;> exact Nat.succ_pos _
  unfold workLeft
  rw [h₁]
  exact Nat.lt_add_of_pos_left hpos

theorem backed_of (hb : Backed s)
    (hgrow : ∀ key, (find s.counters key).isSome → (find t.counters key).isSome)
    (hrun : ∀ h ∈ t.running, h ∈ s.running ∨
      (h.stage.seen = true → (find t.counters h.key).isSome)) : Backed t := by
  intro h hm hseen
  rcases hrun h hm with hm | hnew
  · exact hgrow h.key (hb h hm hseen)
  · exact hnew hseen

theorem insert_grows (c : Table CounterKey CounterValue) (key : CounterKey) (v : CounterValue)
    (key' : CounterKey) (hk : (find c key').isSome) : (find (c.insert key v) key').isSome := by
  rw [find_insert]
  split_ifs
  · rfl
  · exact hk

theorem backed_resume (hb : Backed s) (hi : s.running[i]? = some h)
    (ht : resume s i timestamp h = some t) : Backed t := by
  have hmem := List.mem_of_getElem? hi
  have hset : ∀ (h' : Handler) (c : Table CounterKey CounterValue),
      (h'.stage.seen = true → (find c h'.key).isSome) → ∀ x ∈ s.running.set i h',
        x ∈ s.running ∨ (x.stage.seen = true → (find c x.key).isSome) := by
    intro h' c hnew x hx
    rcases mem_set_cases hx with rfl | hx
    · exact Or.inr hnew
    · exact Or.inl hx
  unfold resume at ht
  cases hst : h.stage with
  | deleteEnter e =>
    rw [hst] at ht
    cases ht
    exact backed_of hb (fun _ hk => hk) (hset _ _ (fun hseen => by cases hseen))
  | lookupCounter e =>
    rw [hst] at ht
    cases ht
    exact backed_of hb (fun _ hk => hk) (hset _ _ (fun hseen => hseen))
  | measure e known =>
    rw [hst] at ht
    cases ht
    refine backed_of hb (fun _ hk => hk) (hset _ _ ?_)
    cases known with
    | false => exact fun hseen => by cases hseen
    | true => exact fun _ => hb h hmem (by rw [hst]; rfl)
  | insertNew delta =>
    rw [hst] at ht
    dsimp only at ht
    cases hf : find s.counters h.key with
    | none =>
      rw [hf] at ht
      cases ht
      exact backed_of hb (insert_grows s.counters h.key _)
        (fun _ hx => Or.inl (List.mem_of_mem_eraseIdx hx))
    | some v =>
      rw [hf] at ht
      cases ht
      exact backed_of hb (fun _ hk => hk) (fun _ hx => Or.inl (List.mem_of_mem_eraseIdx hx))
  | addTime delta =>
    rw [hst] at ht
    obtain ⟨v,hf,rfl⟩ := Option.map_eq_some_iff.mp ht
    refine backed_of hb (insert_grows s.counters h.key _) (hset _ _ (fun _ => ?_))
    exact insert_grows s.counters h.key _ h.key (Option.isSome_of_eq_some hf)
  | addCount =>
    rw [hst] at ht
    obtain ⟨v,_,rfl⟩ := Option.map_eq_some_iff.mp ht
    exact backed_of hb (insert_grows s.counters h.key _)
      (fun _ hx => Or.inl (List.mem_of_mem_eraseIdx hx))

theorem backed_step (hb : Backed s) {a : Action} (ht : step s a = some t) : Backed t := by
  obtain ⟨i,timestamp,h,_,hi,ht⟩ | ⟨_,⟨m,rfl,hm⟩ | ⟨h,e,hst,rfl⟩⟩ := step_cases ht
  · exact backed_resume hb hi ht
  · refine backed_of hb ?_ (fun _ hx => Or.inl hx)
    intro key hk
    rw [hm]
    exact hk
  · refine backed_of hb (fun _ hk => hk) ?_
    intro x hx
    rcases List.mem_append.mp hx with hx | hx
    · exact Or.inl hx
    · rw [List.mem_singleton.mp hx,hst]
      exact Or.inr (fun hseen => by cases hseen)

theorem resume_progress (hb : Backed s) (hi : s.running[i]? = some h) (timestamp : UInt64) :
    ∃ t, resume s i timestamp h = some t ∧ workLeft t.running < workLeft s.running := by
  have hmem := List.mem_of_getElem? hi
  unfold resume
  cases hst : h.stage with
  | deleteEnter e => exact ⟨_,rfl,work_set hi (by rw [hst]; exact Nat.lt_succ_self 4)⟩
  | lookupCounter e => exact ⟨_,rfl,work_set hi (by rw [hst]; exact Nat.lt_succ_self 3)⟩
  | measure e known =>
    refine ⟨_,rfl,work_set hi ?_⟩
    rw [hst]
    cases known with
    | false => exact (by decide : 1 < 3)
    | true => exact (by decide : 2 < 3)
  | insertNew delta =>
    cases hf : find s.counters h.key with
    | none => exact ⟨_,rfl,work_erase hi⟩
    | some v => exact ⟨_,rfl,work_erase hi⟩
  | addTime delta =>
    obtain ⟨v,hv⟩ := Option.isSome_iff_exists.mp (hb h hmem (by rw [hst]; rfl))
    refine ⟨_,by rw [hv]; rfl,work_set hi ?_⟩
    rw [hst]
    exact Nat.lt_succ_self 1
  | addCount =>
    obtain ⟨v,hv⟩ := Option.isSome_iff_exists.mp (hb h hmem (by rw [hst]; rfl))
    exact ⟨_,by rw [hv]; rfl,work_erase hi⟩

theorem calls_end (pids : Finset UInt32) {acts : List Action}
    (hr : exec step (start pids) acts = some s) :
    ∃ (rest : List Action) (t : State), exec step s rest = some t ∧ t.running = [] := by
  have hb := exec_preserves step Backed (fun _ _ _ hb ht => backed_step hb ht) (start pids) s acts
    (fun _ hm => by cases hm) hr
  clear hr
  induction hw : workLeft s.running using Nat.strong_induction_on generalizing s with
  | _ w ih =>
    cases hrun : s.running with
    | nil => exact ⟨[],s,rfl,hrun⟩
    | cons h rest =>
      have hi : s.running[0]? = some h := by rw [hrun]; rfl
      obtain ⟨m,hm,hlt⟩ := resume_progress hb hi 0
      have hone : step s (.advance 0 0) = some m := by
        simp only [step,hi,Option.bind_some,hm]
      obtain ⟨more,t,ht,hq⟩ := ih _ (hw ▸ hlt) (backed_step hb hone) rfl
      refine ⟨.advance 0 0::more,t,?_,hq⟩
      rw [exec,hone,Option.bind_some,ht]

end Progress

end ArchivalDedup.SyscallCounter
