import ArchivalDedup.Linearization
import ArchivalDedup.ReadSnapshots

/-!
# When a call takes effect

Calls are numbered in the order in which they are made. A write has its one
effect when it consolidates, and none when it fails; the removals have theirs in
the order clear, then size. A read sees one volume: the lock it holds during its
lookups keeps every effect out.
-/

set_option autoImplicit false

namespace ArchivalDedup.AtomicCalls
open ArchivalDedup.FiniteTable ArchivalDedup.MetaIndex ArchivalDedup.WriteDedup
open ArchivalDedup.ReadDedup ArchivalDedup.ReadBlocks ArchivalDedup.Passthrough
open ArchivalDedup.ConsecutiveRun ArchivalDedup.ByteMap ArchivalDedup.Ledger
open ArchivalDedup.Threads ArchivalDedup.ThreadLedger ArchivalDedup.ReferenceSafety
open ArchivalDedup.Content ArchivalDedup.ReadSnapshots ArchivalDedup.Interleaving
open ArchivalDedup.EffectTrace ArchivalDedup.Linearization ArchivalDedup.BlockRefinement

def callsOf (acts : List Action) : List Call :=
  acts.filterMap (fun
    | .call k => some k
    | .step _ _ => none)

def effectsOf (i : ℕ) (es : List (ℕ × Effect)) : List Effect :=
  (es.filter (fun e => e.1 = i)).map Prod.snd

def unlinkEffects (path : Path) (c : Context) : List Effect :=
  match unlinkExtent path c with
  | none => []
  | some numBlocks => [.clear path 0 numBlocks,.forget path]

def truncateEffects (path : Path) (size : ℕ) (c : Context) : List Effect :=
  match truncateExtent path size c with
  | none => []
  | some (newBlockCount,oldBlockCount) =>
      [.clear path newBlockCount (oldBlockCount-newBlockCount),.shrink path size]

/-- The effects of a call that has returned; `looked st c` says that the call left the
stage `st` in the context `c`. -/
def Completed (looked : Stage → Context → Prop) (es : List Effect) : Call → Except Errno ℕ → Prop
  | .write r, .ok n => n = r.buf.length ∧ es = if r.buf.length = 0 then [] else [.store r]
  | .write _, .error _ => es = []
  | .unlink path, _ => ∃ c, looked (.unlinkSize path) c ∧ es = unlinkEffects path c
  | .truncate path size, _ =>
      if size < 0 ∨ size % blockSize ≠ 0 then es = []
      else ∃ c, looked (.truncateSize path size.toNat) c ∧ es = truncateEffects path size.toNat c
  | .read .., _ => es = []

def BeforeStore (k : Call) (es : List Effect) (r : WriteReq) : Prop :=
  k = .write r ∧ r.numBlocks*blockSize = r.buf.length ∧ 0 < r.buf.length ∧ es = []

def Truncates (k : Call) (path : Path) (size : ℕ) : Prop :=
  ∃ z, k = .truncate path z ∧ ¬ (z < 0 ∨ z % blockSize ≠ 0) ∧ size = z.toNat

def Stands (looked : Stage → Context → Prop) (k : Call) (es : List Effect) : Stage → Prop
  | .pass1 r _ => BeforeStore k es r
  | .drain r _ => BeforeStore k es r
  | .append r _ _ => BeforeStore k es r
  | .flush r _ _ => BeforeStore k es r
  | .consolidate r _ => BeforeStore k es r
  | .release _ res => ∃ r, k = .write r ∧ res = r.buf.length ∧ 0 < r.buf.length ∧ es = [.store r]
  | .rollbackHits _ _ => (∃ r, k = .write r) ∧ es = []
  | .rollbackConcat _ _ _ => (∃ r, k = .write r) ∧ es = []
  | .rollbackMisses _ _ => (∃ r, k = .write r) ∧ es = []
  | .unlinkSize path => k = .unlink path ∧ es = []
  | .unlinkRemove path n => k = .unlink path ∧ es = [] ∧
      ∃ c, looked (.unlinkSize path) c ∧ unlinkExtent path c = some n
  | .unlinkConcat path _ => k = .unlink path ∧
      ∃ c n, looked (.unlinkSize path) c ∧ unlinkExtent path c = some n ∧ es = [.clear path 0 n]
  | .unlinkDropSize path => k = .unlink path ∧
      ∃ c n, looked (.unlinkSize path) c ∧ unlinkExtent path c = some n ∧ es = [.clear path 0 n]
  | .unlinkBacking path => k = .unlink path ∧
      ∃ c, looked (.unlinkSize path) c ∧ es = unlinkEffects path c
  | .truncateSize path size => Truncates k path size ∧ es = []
  | .truncateRemove path size i m => Truncates k path size ∧ es = [] ∧
      ∃ c, looked (.truncateSize path size) c ∧ truncateExtent path size c = some (i,m)
  | .truncateConcat path size _ => Truncates k path size ∧ ∃ c i m,
      looked (.truncateSize path size) c ∧ truncateExtent path size c = some (i,m) ∧
        es = [.clear path i (m-i)]
  | .truncateShrink path size => Truncates k path size ∧ ∃ c i m,
      looked (.truncateSize path size) c ∧ truncateExtent path size c = some (i,m) ∧
        es = [.clear path i (m-i)]
  | .truncateBacking path size => Truncates k path size ∧
      ∃ c, looked (.truncateSize path size) c ∧ es = truncateEffects path size c
  | .readLookup _ _ _ => (∃ r buf, k = .read r buf) ∧ es = []
  | .readGroups _ _ _ _ => (∃ r buf, k = .read r buf) ∧ es = []
  | .readDone _ _ _ _ _ => (∃ r buf, k = .read r buf) ∧ es = []
  | .done res => Completed looked es k res

variable {sha512 : List UInt8 → Hash} {qsort : List BlockPair → List BlockPair}
variable {c : Context} {ch : Choice} {k : Call} {es : List Effect}
variable {looked : Stage → Context → Prop}

theorem start_stands (looked : Stage → Context → Prop) (k : Call) : Stands looked k [] k.start := by
  cases k with
  | write r =>
    simp only [Call.start]
    split_ifs with h₁ h₂
    · exact ⟨h₁.symm,by rw [if_pos h₁]⟩
    · rfl
    · rw [not_or,not_not] at h₂
      exact ⟨rfl,Nat.div_mul_cancel (Nat.dvd_of_mod_eq_zero h₂.2),Nat.pos_of_ne_zero h₁,rfl⟩
  | unlink path => exact ⟨rfl,rfl⟩
  | truncate path size =>
    simp only [Call.start]
    split_ifs with h
    · simp only [Stands,Completed,if_pos h]
    · exact ⟨⟨size,rfl,h,rfl⟩,rfl⟩
  | read r buf =>
    simp only [Call.start]
    split_ifs
    · exact ⟨⟨r,buf,rfl⟩,rfl⟩
    · exact ⟨⟨r,buf,rfl⟩,rfl⟩

theorem completed_mono {looked' : Stage → Context → Prop} (h : ∀ st c, looked st c → looked' st c)
    {res : Except Errno ℕ} (hs : Completed looked es k res) : Completed looked' es k res := by
  cases k with
  | write r => cases res <;> exact hs
  | unlink path =>
    obtain ⟨c,hl,he⟩ := hs
    exact ⟨c,h _ c hl,he⟩
  | truncate path size =>
    simp only [Completed] at hs ⊢
    split_ifs at hs ⊢
    · exact hs
    · obtain ⟨c,hl,he⟩ := hs
      exact ⟨c,h _ c hl,he⟩
  | read r buf => exact hs

theorem stands_mono {looked' : Stage → Context → Prop} (h : ∀ st c, looked st c → looked' st c)
    {st : Stage} (hs : Stands looked k es st) : Stands looked' k es st := by
  cases st with
  | unlinkRemove path n =>
    obtain ⟨hk,he,c,hl,hc⟩ := hs
    exact ⟨hk,he,c,h _ c hl,hc⟩
  | unlinkConcat path slots =>
    obtain ⟨hk,c,n,hl,hc⟩ := hs
    exact ⟨hk,c,n,h _ c hl,hc⟩
  | unlinkDropSize path =>
    obtain ⟨hk,c,n,hl,hc⟩ := hs
    exact ⟨hk,c,n,h _ c hl,hc⟩
  | unlinkBacking path =>
    obtain ⟨hk,c,hl,he⟩ := hs
    exact ⟨hk,c,h _ c hl,he⟩
  | truncateRemove path size i m =>
    obtain ⟨hk,he,c,hl,hc⟩ := hs
    exact ⟨hk,he,c,h _ c hl,hc⟩
  | truncateConcat path size slots =>
    obtain ⟨hk,c,i,m,hl,hc⟩ := hs
    exact ⟨hk,c,i,m,h _ c hl,hc⟩
  | truncateShrink path size =>
    obtain ⟨hk,c,i,m,hl,hc⟩ := hs
    exact ⟨hk,c,i,m,h _ c hl,hc⟩
  | truncateBacking path size =>
    obtain ⟨hk,c,hl,he⟩ := hs
    exact ⟨hk,c,h _ c hl,he⟩
  | done res => exact completed_mono h hs
  | _ => exact hs

theorem stands_idle {st st' : Stage} (hn : effect st = none) (h : Stands looked k es st') :
    Stands looked k (es++(effect st).toList) st' := by
  rw [hn,Option.toList_none,List.append_nil]
  exact h

theorem pass1_stands {r : WriteReq} {p : Pass1} {t : Context × Stage} (h : BeforeStore k es r)
    (ht : advance sha512 qsort ch c (.pass1 r p) = some t) : Stands looked k es t.2 := by
  simp only [advance] at ht
  split_ifs at ht <;> cases ht <;> exact h

theorem flush_stands {r : WriteReq} (plan : List PlanEntry) (i : ℕ) (io : PwriteResult)
    (h : BeforeStore k es r) : Stands looked k es (flushStep r plan i io c).2 := by
  unfold flushStep
  split
  · exact h
  · split
    · exact h
    · exact ⟨⟨r,h.1⟩,h.2.2.2⟩

theorem unlinkSize_stands {path : Path} {t : Context × Stage} (hl : looked (.unlinkSize path) c)
    (h : k = .unlink path ∧ es = []) (ht : advance sha512 qsort ch c (.unlinkSize path) = some t) :
    Stands looked k es t.2 := by
  simp only [advance] at ht
  cases hext : unlinkExtent path c with
  | none =>
    rw [hext] at ht
    cases ht
    exact ⟨h.1,c,hl,by rw [unlinkEffects,hext]; exact h.2⟩
  | some n =>
    rw [hext] at ht
    cases ht
    exact ⟨h.1,h.2,c,hl,hext⟩

theorem truncateSize_stands {path : Path} {size : ℕ} {t : Context × Stage}
    (hl : looked (.truncateSize path size) c) (h : Truncates k path size ∧ es = [])
    (ht : advance sha512 qsort ch c (.truncateSize path size) = some t) :
    Stands looked k es t.2 := by
  simp only [advance] at ht
  cases hext : truncateExtent path size c with
  | none =>
    rw [hext] at ht
    cases ht
    exact ⟨h.1,c,hl,by rw [truncateEffects,hext]; exact h.2⟩
  | some p =>
    obtain ⟨i,m⟩ := p
    rw [hext] at ht
    cases ht
    exact ⟨h.1,h.2,c,hl,hext⟩

theorem truncate_completed {path : Path} {size : ℕ} {res : Except Errno ℕ}
    (hk : Truncates k path size)
    (h : ∃ c, looked (.truncateSize path size) c ∧ es = truncateEffects path size c) :
    Completed looked es k res := by
  obtain ⟨z,rfl,hz,rfl⟩ := hk
  simp only [Completed,if_neg hz]
  exact h

theorem endLookup_stands (hk : (∃ r buf, k = .read r buf) ∧ es = []) (r : ReadReq)
    (pairs : List BlockPair) (buf : Buffer) : Stands looked k es (endLookup qsort r pairs buf) := by
  unfold endLookup
  split_ifs
  · exact hk
  · exact hk

theorem lookup_stands (hk : (∃ r buf, k = .read r buf) ∧ es = []) (r : ReadReq)
    (pairs : List BlockPair) (buf : Buffer) :
    Stands looked k es (lookupStep qsort r pairs buf c) := by
  unfold lookupStep
  split
  · split
    · exact hk
    · exact endLookup_stands hk r pairs buf
  · exact endLookup_stands hk r pairs buf

theorem readStep_stands (hk : (∃ r buf, k = .read r buf) ∧ es = []) (r : ReadReq)
    (pairs : List BlockPair) (g : ℕ) (buf : Buffer) :
    Stands looked k es (readStep r pairs g buf c) := by
  simp only [readStep]
  split
  · exact hk
  · split
    · exact hk
    · exact hk

/-- One step of a call adds its effect to those the call has had. -/
theorem advance_stands {st : Stage} {t : Context × Stage} (hl : looked st c)
    (h : Stands looked k es st) (ht : advance sha512 qsort ch c st = some t) :
    Stands looked k (es++(effect st).toList) t.2 := by
  cases st with
  | pass1 r p => exact stands_idle rfl (pass1_stands h ht)
  | flush r plan i =>
    cases ht
    exact stands_idle rfl (flush_stands plan i ch.io h)
  | consolidate r plan =>
    obtain ⟨hk,hl,hpos,rfl⟩ := h
    cases ht
    exact ⟨r,hk,hl,hpos,rfl⟩
  | release slots res =>
    obtain ⟨r,rfl,rfl,hpos,rfl⟩ := h
    cases ht
    exact ⟨rfl,by rw [if_neg hpos.ne']; rfl⟩
  | rollbackMisses plan err =>
    obtain ⟨⟨r,rfl⟩,rfl⟩ := h
    cases ht
    rfl
  | unlinkSize path => exact stands_idle rfl (unlinkSize_stands hl h ht)
  | unlinkRemove path n =>
    obtain ⟨hk,rfl,c',hl',hext⟩ := h
    cases ht
    exact ⟨hk,c',n,hl',hext,rfl⟩
  | unlinkDropSize path =>
    obtain ⟨hk,c',n,hl',hext,rfl⟩ := h
    cases ht
    exact ⟨hk,c',hl',by rw [unlinkEffects,hext]; rfl⟩
  | unlinkBacking path =>
    obtain ⟨rfl,h⟩ := h
    cases ht
    exact stands_idle rfl h
  | truncateSize path size => exact stands_idle rfl (truncateSize_stands hl h ht)
  | truncateRemove path size i m =>
    obtain ⟨hk,rfl,c',hl',hext⟩ := h
    cases ht
    exact ⟨hk,c',i,m,hl',hext,rfl⟩
  | truncateShrink path size =>
    obtain ⟨hk,c',i,m,hl',hext,rfl⟩ := h
    cases ht
    exact ⟨hk,c',hl',by rw [truncateEffects,hext]; rfl⟩
  | truncateBacking path size =>
    cases ht
    exact stands_idle rfl (truncate_completed h.1 h.2)
  | readLookup r pairs buf =>
    cases ht
    exact stands_idle rfl (lookup_stands h r pairs buf)
  | readGroups r pairs g buf =>
    cases ht
    exact stands_idle rfl (readStep_stands h r pairs g buf)
  | readDone r pairs g buf res => cases ht
  | done res => cases ht
  | _ =>
    cases ht
    exact stands_idle rfl h

theorem effectsOf_append (i : ℕ) (es fs : List (ℕ × Effect)) :
    effectsOf i (es++fs) = effectsOf i es++effectsOf i fs := by
  simp [effectsOf]

theorem effectsOf_none {i : ℕ} {es : List (ℕ × Effect)} (h : ∀ e ∈ es, e.1 ≠ i) :
    effectsOf i es = [] := by
  unfold effectsOf
  rw [List.filter_eq_nil_iff.mpr (fun e he => by simpa using h e he),List.map_nil]

theorem effectsOf_step {s : System} {i j : ℕ} {st : Stage} (hst : s.procs[j]? = some st) :
    effectsOf i (effectBy s (.step j ch)).toList = if j = i then (effect st).toList else [] := by
  simp only [effectBy,hst,Option.bind_some]
  cases effect st with
  | none => simp [effectsOf]
  | some e =>
    by_cases h : j = i
    · simp [effectsOf,h]
    · simp [effectsOf,h]

theorem callsOf_call (acts : List Action) (k : Call) :
    callsOf (acts++[.call k]) = callsOf acts++[k] := by
  simp [callsOf]

theorem callsOf_step (acts : List Action) (i : ℕ) (ch : Choice) :
    callsOf (acts++[.step i ch]) = callsOf acts := by
  simp [callsOf]

theorem known_or_new {acts : List Action} {procs : List Stage} {k k' : Call} {i : ℕ} {st : Stage}
    (hcount : procs.length = (callsOf acts).length)
    (hk : (callsOf (acts++[.call k]))[i]? = some k') (hst : (procs++[k.start])[i]? = some st) :
    ((callsOf acts)[i]? = some k' ∧ procs[i]? = some st) ∨
      (i = procs.length ∧ k' = k ∧ st = k.start) := by
  rw [callsOf_call] at hk
  by_cases hi : i < procs.length
  · rw [List.getElem?_append_left (hcount ▸ hi)] at hk
    rw [List.getElem?_append_left hi] at hst
    exact Or.inl ⟨hk,hst⟩
  · have hlt := (List.getElem?_eq_some_iff.mp hst).1
    have hlen : i = procs.length := by
      simp only [List.length_append,List.length_singleton] at hlt
      omega
    subst hlen
    rw [hcount,List.getElem?_concat_length] at hk
    rw [List.getElem?_concat_length] at hst
    exact Or.inr ⟨rfl,(Option.some.inj hk).symm,(Option.some.inj hst).symm⟩

variable (sha512 qsort) in
def Left (acts : List Action) (i : ℕ) (st : Stage) (c : Context) : Prop :=
  ∃ as ch u, as++[.step i ch] <+: acts ∧ Reaches sha512 qsort as u ∧ u.procs[i]? = some st ∧
    u.ctx = c

theorem left_snoc {acts : List Action} {i : ℕ} (a : Action) (st : Stage) (c : Context)
    (h : Left sha512 qsort acts i st c) : Left sha512 qsort (acts++[a]) i st c := by
  obtain ⟨as,ch,u,hp,hu⟩ := h
  exact ⟨as,ch,u,hp.trans (List.prefix_append ..),hu⟩

structure Standing (sha512 : List UInt8 → Hash) (qsort : List BlockPair → List BlockPair)
    (acts : List Action) (es : List (ℕ × Effect)) (s : System) : Prop where
  count : s.procs.length = (callsOf acts).length
  tags : ∀ e ∈ es, e.1 < s.procs.length
  stands : ∀ i k st, (callsOf acts)[i]? = some k → s.procs[i]? = some st →
    Stands (Left sha512 qsort acts i) k (effectsOf i es) st

theorem standing_call {acts : List Action} {fs : List (ℕ × Effect)} {s : System} (k : Call)
    (h : Standing sha512 qsort acts fs s) :
    Standing sha512 qsort (acts++[.call k]) (fs++[]) ⟨s.ctx,s.procs++[k.start]⟩ := by
  rw [List.append_nil]
  refine ⟨by rw [callsOf_call]; simp [h.count],?_,?_⟩
  · intro e he
    have := h.tags e he
    simp only [List.length_append,List.length_singleton]
    omega
  · intro i k' st hk hst
    rcases known_or_new h.count hk hst with ⟨hk,hst⟩ | ⟨rfl,rfl,rfl⟩
    · exact stands_mono (left_snoc _) (h.stands i k' st hk hst)
    · rw [effectsOf_none (fun e he => (h.tags e he).ne)]
      exact start_stands _ k'

theorem standing_step {acts : List Action} {fs : List (ℕ × Effect)} {s : System} {j : ℕ}
    {st : Stage} {t : Context × Stage} (hr : Reaches sha512 qsort acts s)
    (h : Standing sha512 qsort acts fs s) (hst : s.procs[j]? = some st)
    (ht : advance sha512 qsort ch s.ctx st = some t) :
    Standing sha512 qsort (acts++[.step j ch]) (fs++(effectBy s (.step j ch)).toList)
      ⟨t.1,s.procs.set j t.2⟩ := by
  have hj : j < s.procs.length := (List.getElem?_eq_some_iff.mp hst).1
  refine ⟨by rw [callsOf_step]; simp [h.count],?_,?_⟩
  · intro e he
    rw [List.length_set]
    rcases List.mem_append.mp he with he | he
    · exact h.tags e he
    · obtain ⟨x,_,rfl⟩ := Option.map_eq_some_iff.mp (Option.mem_toList.mp he)
      exact hj
  · intro i k q hk hq
    rw [callsOf_step] at hk
    rw [effectsOf_append,effectsOf_step hst]
    by_cases hij : j = i
    · subst hij
      have hqt : t.2 = q := by
        rw [List.getElem?_set_self hj] at hq
        exact Option.some.inj hq
      have hleft : Left sha512 qsort (acts++[.step j ch]) j st s.ctx :=
        ⟨acts,ch,s,List.prefix_rfl,hr,hst,rfl⟩
      rw [if_pos rfl,←hqt]
      exact advance_stands hleft (stands_mono (left_snoc _) (h.stands j k st hk hst)) ht
    · rw [List.getElem?_set_ne hij] at hq
      rw [if_neg hij,List.append_nil]
      exact stands_mono (left_snoc _) (h.stands i k q hk hq)

theorem standing_run {acts : List Action} {s : System} (hr : Reaches sha512 qsort acts s) :
    Standing sha512 qsort acts (effects sha512 qsort acts) s := by
  induction acts using List.reverseRecOn generalizing s with
  | nil =>
    cases hr
    exact ⟨rfl,by simp [effects,trace],by simp [callsOf]⟩
  | append_singleton as a ih =>
    obtain ⟨m,hm,hs⟩ := exec_snoc_some _ hr
    have heffects : effects sha512 qsort (as++[a]) =
        effects sha512 qsort as++(effectBy m a).toList := trace_snoc _ _ a hm
    rw [heffects]
    cases a with
    | call k =>
      rw [step_call_some sha512 qsort hs]
      exact standing_call k (ih hm)
    | step j ch =>
      obtain ⟨st,t,hst,ht,rfl,_⟩ := step_step_some sha512 qsort hs
      exact standing_step hm (ih hm) hst ht

/-- In every run a call that has returned had its effects exactly once: a write its
one effect and only when it reports its full length, a removal those that the size
calls for which stood on record when the call looked it up. -/
theorem returned_call_effects (acts : List Action) (s : System) (hr : Reaches sha512 qsort acts s)
    (i : ℕ) (k : Call) (st : Stage) (res : Except Errno ℕ) (hk : (callsOf acts)[i]? = some k)
    (hst : s.procs[i]? = some st) (hres : resultOf st = some res) :
    Completed (Left sha512 qsort acts i) (effectsOf i (effects sha512 qsort acts)) k res := by
  have h := (standing_run hr).stands i k st hk hst
  cases st with
  | readDone r pairs g buf res' =>
    obtain ⟨⟨r',buf',rfl⟩,hes⟩ := h
    exact hes
  | done res' =>
    cases hres
    exact h
  | _ => cases hres

theorem returned_call_effects_stored : ∃ s st, Reaches sampleSha512 id storeA s ∧
    s.procs[0]? = some st ∧ resultOf st = some (.ok 4096) ∧
    effectsOf 0 (effects sampleSha512 id storeA) =
      [.store (fillReq fileA 65 0 1 one_block_fits block0_ends)] := by
  obtain ⟨s,hr,hp⟩ := exec_observe (step sampleSha512 id)
    (fun s => ∃ st ∈ s.procs[0]?, resultOf st = some (.ok 4096)) emptySystem storeA
    (by decide +kernel)
  obtain ⟨st,hst,hres⟩ := of_decide_eq_true hp
  have h := returned_call_effects storeA s hr 0
    (.write (fillReq fileA 65 0 1 one_block_fits block0_ends)) st (.ok 4096) rfl hst hres
  refine ⟨s,st,hr,hst,hres,h.2.trans (if_neg ?_)⟩
  rw [←h.1]
  decide

/-! ## Reads -/

def Volume.read (v : Volume) (r : ReadReq) : List UInt8 :=
  (presentRun (fun i => v.blocks r.path (r.startBlock+i)) r.numBlocks 0).flatten

variable {tr : System → Prop} {r₀ : ReadReq}

/-- A read that has looked up all its blocks in one state of the trace. -/
def SeenIn (u : System) (r₀ : ReadReq) (f : MasterFile) (pairs : List BlockPair) (st : Stage) :
    Prop :=
  pairs.Perm (presentRun (lookupPair r₀ u.ctx) r₀.numBlocks 0) ∧
    ReadOk (fun x => x = u) r₀ f st

/-- The lookups so far are those of the present state; after the last of them
the state they were made in is settled. -/
def OneState (tr : System → Prop) (r₀ : ReadReq) (c : Context) : Stage → Prop
  | .readLookup r pairs _ => r = r₀ ∧ pairs.length ≤ r₀.numBlocks ∧
      ∀ j < pairs.length, pairs[j]? = lookupPair r₀ c j
  | .readGroups r pairs g buf =>
      ∃ u, tr u ∧ SeenIn u r₀ c.toMasterFile pairs (.readGroups r pairs g buf)
  | .readDone r pairs g buf res => ∀ n, res = .ok n →
      ∃ u, tr u ∧ SeenIn u r₀ c.toMasterFile pairs (.readDone r pairs g buf res)
  | _ => False

theorem oneState_mono {tr' : System → Prop} (h : ∀ u, tr u → tr' u) {st : Stage}
    (hs : OneState tr r₀ c st) : OneState tr' r₀ c st := by
  cases st with
  | readLookup r pairs buf => exact hs
  | readGroups r pairs g buf =>
    obtain ⟨u,hu,hseen⟩ := hs
    exact ⟨u,h u hu,hseen⟩
  | readDone r pairs g buf res =>
    intro n hn
    obtain ⟨u,hu,hseen⟩ := hs n hn
    exact ⟨u,h u hu,hseen⟩
  | _ => exact hs

theorem start_oneState (tr : System → Prop) (c : Context) (r : ReadReq) (buf : Buffer) :
    OneState tr r c (Call.read r buf).start := by
  simp only [Call.start]
  split_ifs
  · intro n hn
    cases hn
  · exact ⟨rfl,Nat.zero_le _,by simp⟩

theorem readOk_snapshots {tr' : System → Prop} {f : MasterFile} {st : Stage}
    (h : ∀ i bytes, Snapshot tr r₀ i bytes → Snapshot tr' r₀ i bytes)
    (hs : ReadOk tr r₀ f st) : ReadOk tr' r₀ f st := by
  cases st with
  | readLookup r pairs buf => exact ⟨hs.1,hs.2.1,fun p hp => h _ _ (hs.2.2 p hp)⟩
  | readGroups r pairs g buf =>
    exact ⟨hs.1,hs.2.1,fun p hp => h _ _ (hs.2.2.1 p hp),fun p hp => h _ _ (hs.2.2.2 p hp)⟩
  | readDone r pairs g buf res =>
    exact ⟨hs.1,hs.2.1,fun p hp => h _ _ (hs.2.2.1 p hp),hs.2.2.2⟩
  | _ => exact hs

theorem readStep_readOk (hq : ∀ l, (qsort l).Perm l) {r : ReadReq} {pairs : List BlockPair} {g : ℕ}
    {buf : Buffer} (hs : ReadOk tr r₀ c.toMasterFile (.readGroups r pairs g buf)) :
    ReadOk tr r₀ c.toMasterFile (readStep r pairs g buf c) := by
  set c' : Context := { emptyContext with toMasterFile := c.toMasterFile } with hc'
  have hwith : ReadOk (fun x => tr x ∨ x = ⟨c',[]⟩) r₀ c'.toMasterFile
      (.readGroups r pairs g buf) := readOk_mono (fun _ => Or.inl) hs
  have hadv : advance (fun _ => default) qsort ⟨0,.complete,none⟩ c' (.readGroups r pairs g buf) =
      some (c',readStep r pairs g buf c') := rfl
  have hnow : tr ⟨c',[]⟩ ∨ (⟨c',[]⟩ : System) = ⟨c',[]⟩ := Or.inr rfl
  refine readOk_snapshots ?_ (advance_readOk hq hnow hwith hadv)
  rintro i bytes ⟨u,hu | rfl,hm⟩
  · exact ⟨u,hu,hm⟩
  · obtain ⟨a,ha,_⟩ := hm
    cases ha

/-- All lookups made, the pairs are the longest mapped run of the present state. -/
theorem lookups_end {r : ReadReq} {pairs : List BlockPair} (hl : pairs.length ≤ r.numBlocks)
    (h : ∀ j < pairs.length, pairs[j]? = lookupPair r c j)
    (hend : pairs.length < r.numBlocks → lookupPair r c pairs.length = none) :
    pairs = presentRun (lookupPair r c) r.numBlocks 0 := by
  have hlen : (presentRun (lookupPair r c) r.numBlocks 0).length = pairs.length := by
    refine (presentRun_length _ 0 hl).mpr ⟨?_,?_⟩
    · intro j hj
      rw [Nat.zero_add,←h j hj,List.getElem?_eq_getElem hj]
      exact Option.some_ne_none _
    · intro hlt
      rw [Nat.zero_add]
      exact hend hlt
  apply List.ext_getElem?
  intro j
  by_cases hj : j < pairs.length
  · have hj' : j < (presentRun (lookupPair r c) r.numBlocks 0).length := hlen.symm ▸ hj
    have hget := presentRun_getElem (List.getElem?_eq_getElem hj')
    rw [Nat.zero_add] at hget
    rw [h j hj,hget,List.getElem?_eq_getElem hj']
  · rw [List.getElem?_eq_none (Nat.le_of_not_lt hj),
      List.getElem?_eq_none (hlen ▸ Nat.le_of_not_lt hj)]

theorem oneState_endLookup (hq : ∀ l, (qsort l).Perm l) {procs : List Stage} {buf : Buffer}
    {pairs : List BlockPair} (hnow : tr ⟨c,procs⟩)
    (hpairs : pairs = presentRun (lookupPair r₀ c) r₀.numBlocks 0) :
    OneState tr r₀ c (endLookup qsort r₀ pairs buf) := by
  have hidx : pairs.map BlockPair.logicalIdx = List.range pairs.length := by
    rw [hpairs,←lookupPairs_run]
    exact lookupPairs_positions r₀ c r₀.numBlocks
  have hsnap : ∀ p ∈ pairs, Snapshot (fun x => x = ⟨c,procs⟩) r₀ p.logicalIdx
      (c.toMasterFile.block p.masterBlockIndex) := by
    intro p hp
    rw [hpairs] at hp
    obtain ⟨j,hj⟩ := presentRun_mem hp
    obtain ⟨a,ha,rfl⟩ := Option.map_eq_some_iff.mp hj
    exact ⟨_,rfl,a,ha,rfl⟩
  have hok : ReadOk (fun x => x = ⟨c,procs⟩) r₀ c.toMasterFile (endLookup qsort r₀ pairs buf) :=
    readOk_endLookup hq hidx hsnap
  unfold endLookup at hok ⊢
  split_ifs at hok ⊢ with hnil
  · intro n _
    exact ⟨_,hnow,by rw [←hpairs,hnil],hok⟩
  · exact ⟨_,hnow,hpairs ▸ sortPairs_perm hq pairs,hok⟩

theorem advance_oneState (hq : ∀ l, (qsort l).Perm l) {st : Stage} {t : Context × Stage}
    {procs : List Stage} (hnow : tr ⟨c,procs⟩) (hs : OneState tr r₀ c st)
    (ht : advance sha512 qsort ch c st = some t) : OneState tr r₀ t.1 t.2 := by
  cases st with
  | readLookup r pairs buf =>
    obtain ⟨rfl,hl,hpairs⟩ := hs
    cases ht
    simp only [lookupStep]
    split
    · next hlt =>
      split
      · next p hp =>
        refine ⟨rfl,by simpa using Nat.succ_le_of_lt hlt,?_⟩
        intro j hj
        by_cases hj' : j < pairs.length
        · rw [List.getElem?_append_left hj']
          exact hpairs j hj'
        · have hjl : j = pairs.length := by
            simp only [List.length_append,List.length_singleton] at hj
            omega
          subst hjl
          rw [List.getElem?_concat_length,hp]
      · next hp => exact oneState_endLookup hq hnow (lookups_end hl hpairs (fun _ => hp))
    · next hge =>
      exact oneState_endLookup hq hnow (lookups_end hl hpairs (fun hlt => absurd hlt hge))
  | readGroups r pairs g buf =>
    obtain ⟨u,hu,hperm,hok⟩ := hs
    cases ht
    have hnext := readStep_readOk hq hok
    simp only [readStep] at hnext ⊢
    split_ifs at hnext ⊢
    · intro n _
      exact ⟨u,hu,hperm,hnext⟩
    · split at hnext
      · exact ⟨u,hu,hperm,hnext⟩
      · intro n hn
        cases hn
  | readDone r pairs g buf res => cases ht
  | _ => exact hs.elim

theorem advance_lookup {ps : List Party} {q : Stage} {t : Context × Stage}
    (h : Inv ∅ c (party q::ps)) (hw : q.needsWrite = false)
    (ht : advance sha512 qsort ch c q = some t) (r : ReadReq) (j : ℕ) :
    lookupPair r t.1 j = lookupPair r c j := by
  have hm := advance_moves h ht
  have hn : effect q = none := by cases q <;> first | rfl | cases hw
  unfold lookupPair Context.lookupByFileBlock
  rw [(hm.tables hn).1]
  cases hf : find c.fileToMaster ⟨r.path,r.startBlock+j⟩ with
  | none => rw [Option.map_none,Option.map_none]
  | some a =>
    rw [Option.map_some,Option.map_some,hm.slot a (mapped_published h hf).2]

theorem other_oneState {ps : List Party} {q st : Stage} {t : Context × Stage}
    (h : Inv ∅ c (party q::ps)) (hw : st.holdsRead = true → q.needsWrite = false)
    (hspare : ∀ w ∈ nextPwrite q, ∀ p ∈ unread st,
      p.masterBlockIndex < w.1 ∨ w.1+w.2 ≤ p.masterBlockIndex)
    (ht : advance sha512 qsort ch c q = some t) (hs : OneState tr r₀ c st) :
    OneState tr r₀ t.1 st := by
  have hblock : ∀ p ∈ unread st, t.1.toMasterFile.block p.masterBlockIndex =
      c.toMasterFile.block p.masterBlockIndex := fun p hp =>
    advance_block (fun w hw => hspare w hw p hp) ht
  cases st with
  | readLookup r pairs buf =>
    obtain ⟨rfl,hl,hpairs⟩ := hs
    refine ⟨rfl,hl,?_⟩
    intro j hj
    rw [advance_lookup h (hw rfl) ht]
    exact hpairs j hj
  | readGroups r pairs g buf =>
    obtain ⟨u,hu,hperm,hok⟩ := hs
    exact ⟨u,hu,hperm,readOk_file hblock hok⟩
  | readDone r pairs g buf res =>
    intro n hn
    obtain ⟨u,hu,hperm,hok⟩ := hs n hn
    exact ⟨u,hu,hperm,readOk_file hblock hok⟩
  | _ => exact hs.elim

theorem step_oneState (hq : ∀ l, (qsort l).Perm l) {s t : System} {a : Action} {i : ℕ} {st : Stage}
    (hinv : SysInv sha512 ∅ s) (hnow : tr s) (hi : s.procs[i]? = some st)
    (hok : OneState tr r₀ s.ctx st) (hc : SparesReads s a)
    (hs : step sha512 qsort s a = some t) :
    ∃ st', t.procs[i]? = some st' ∧ OneState tr r₀ t.ctx st' := by
  have hlt : i < s.procs.length := (List.getElem?_eq_some_iff.mp hi).1
  cases a with
  | call k =>
    rw [step_call_some sha512 qsort hs]
    refine ⟨st,?_,hok⟩
    rw [List.getElem?_append_left hlt]
    exact hi
  | step j ch =>
    obtain ⟨q,d,hq',hd,rfl,hlock⟩ := step_step_some sha512 qsort hs
    by_cases hij : j = i
    · subst hij
      have : q = st := Option.some.inj (hq'.symm.trans hi)
      subst this
      refine ⟨d.2,by simp [hlt],advance_oneState hq hnow hok hd⟩
    · refine ⟨st,?_,?_⟩
      · rw [List.getElem?_set_ne hij]
        exact hi
      · have hmem := List.mem_of_getElem? hi
        obtain ⟨hp,_⟩ := set_perm s.procs j q d.2 hq'
        refine other_oneState (inv_perm (hp.map party) hinv.ledger) ?_ ?_ hd hok
        · intro hread
          cases hw : q.needsWrite with
          | false => rfl
          | true =>
            rw [hlock hw st hmem] at hread
            cases hread
        · intro w hw p hp
          exact hc q hq' w hw st hmem p hp

/-- The run condition under which reads are atomic. -/
def Sparing (sha512 : List UInt8 → Hash) (s : System) (a : Action) : Prop :=
  Clean sha512 s a ∧ SparesReads s a

instance (s : System) (a : Action) : Decidable (Sparing sha512 s a) :=
  inferInstanceAs (Decidable (Clean sha512 s a ∧ SparesReads s a))

def WrittenDuring (sha512 : List UInt8 → Hash) (qsort : List BlockPair → List BlockPair)
    (before : List Action) (s : System) (r : ReadReq) (buf : Buffer) (during : List Action) (i : ℕ)
    (bytes : List UInt8) : Prop :=
  ∃ as u a, as <+: during ∧ exec (step sha512 qsort) s (.call (.read r buf)::as) = some u ∧
    find u.ctx.fileToMaster ⟨r.path,r.startBlock+i⟩ = some a ∧ a ∈ u.ctx.live ∧
    bytes = u.ctx.toMasterFile.block (u.ctx.cell a).masterBlockIndex ∧
    (NoCollision sha512 (before++.call (.read r buf)::as) →
      ((effects sha512 qsort (before++.call (.read r buf)::as)).foldl Volume.applyBy
        emptyVolume).blocks r.path (r.startBlock+i) = some bytes)

theorem mapped_written {before during : List Action} {s : System} {r : ReadReq} {buf : Buffer}
    {i : ℕ} {bytes : List UInt8} (hs : Reaches sha512 qsort before s)
    (hc : Meets (step sha512 qsort) (Clean sha512) emptySystem
      (before++.call (.read r buf)::during))
    (h : MappedDuring sha512 qsort s r buf during i bytes) :
    WrittenDuring sha512 qsort before s r buf during i bytes := by
  obtain ⟨as,⟨rest,rfl⟩,u,a,hu,ha,hbytes⟩ := h
  have hr : Reaches sha512 qsort (before++.call (.read r buf)::as) u := by
    unfold Reaches
    rw [exec_append,hs]
    exact hu
  have hclean : Meets (step sha512 qsort) (Clean sha512) emptySystem
      (before++.call (.read r buf)::as) := by
    rw [←List.cons_append,←List.append_assoc] at hc
    exact (meets_append _ _ _ _ _ hc).1
  refine ⟨as,u,a,List.prefix_append ..,hu,ha,(mapped_published (clean_run hr hclean).ledger ha).1,
    hbytes,?_⟩
  intro hinj
  have hvolume := (linear_exec hinj linear_empty hclean (writtenBlocks_handed _) hr).2
  rw [show volume emptySystem.ctx = emptyVolume from volume_empty] at hvolume
  rw [effects,←hvolume,hbytes]
  simp only [volume,ha,Option.map_some]

/-- Every block that a read places had been written to its file block, and not been
removed or replaced, at some instant of the read; a read that returns `n` bytes has
placed all of their blocks. -/
theorem sparing_run_reads (hq : ∀ l, (qsort l).Perm l) (before during : List Action) (r : ReadReq)
    (buf : Buffer) (s t : System) (hs : Reaches sha512 qsort before s)
    (ht : exec (step sha512 qsort) s (.call (.read r buf)::during) = some t)
    (hc : Meets (step sha512 qsort) (Sparing sha512) emptySystem
      (before++.call (.read r buf)::during)) :
    ∃ st, t.procs[s.procs.length]? = some st ∧
      (∀ i ∈ placed st, WrittenDuring sha512 qsort before s r buf during i
        (outBlock (bufferOf st) i)) ∧
      ∀ n, resultOf st = some (.ok n) → ∀ i, i*blockSize < n → i ∈ placed st := by
  obtain ⟨st,hst,hplaced,hres⟩ := spared_blocks_mapped hq before during r buf s t hs ht
    (meets_mono _ (fun _ _ h => h.2) hc)
  refine ⟨st,hst,?_,hres⟩
  intro i hi
  exact mapped_written hs (meets_mono _ (fun _ _ h => h.1) hc) (hplaced i hi)

theorem unlinkedMeanwhile_noCollision (as : List Action) (has : as <+: unlinkedMeanwhile) :
    NoCollision sampleSha512 (storeA++.call (.read readA (fun _ => 0))::as) := by
  have hblock : ∀ b ∈ writtenBlocks (storeA++.call (.read readA (fun _ => 0))::as),
      b = List.replicate blockSize 65 := by
    have hnone : writtenBlocks as = [] := by
      refine List.flatMap_eq_nil_iff.mpr ?_
      intro a ha
      have := has.subset ha
      simp only [unlinkedMeanwhile,go,List.mem_cons,List.not_mem_nil,or_false] at this
      rcases this with rfl | rfl | rfl | rfl | rfl | rfl | rfl | rfl | rfl | rfl <;> rfl
    intro b hb
    simp only [writtenBlocks,List.flatMap_append,List.flatMap_cons,List.nil_append] at hb hnone
    rw [hnone,List.append_nil] at hb
    simp only [storeA,go,List.flatMap_cons,List.flatMap_nil,List.append_nil,List.mem_map,
      List.mem_range,fill_numBlocks] at hb
    obtain ⟨i,hi,rfl⟩ := hb
    exact fill_block one_block_fits block0_ends hi
  intro x hx y hy _
  rw [hblock x hx,hblock y hy]

/-- The read returns what had been written to the file before it was unlinked. -/
theorem sparing_run_reads_unlinked : ∃ s t st as, Reaches sampleSha512 id storeA s ∧
    exec (step sampleSha512 id) s (.call (.read readA (fun _ => 0))::unlinkedMeanwhile) = some t ∧
    Meets (step sampleSha512 id) (Sparing sampleSha512) emptySystem
      (storeA++.call (.read readA (fun _ => 0))::unlinkedMeanwhile) ∧
    t.procs[s.procs.length]? = some st ∧ 0 ∈ placed st ∧ as <+: unlinkedMeanwhile ∧
    ((effects sampleSha512 id (storeA++.call (.read readA (fun _ => 0))::as)).foldl Volume.applyBy
      emptyVolume).blocks readA.path (readA.startBlock+0) = some (outBlock (bufferOf st) 0) := by
  have hc : Meets (step sampleSha512 id) (Sparing sampleSha512) emptySystem
      (storeA++.call (.read readA (fun _ => 0))::unlinkedMeanwhile) := by
    decide +kernel
  obtain ⟨t,hr,hp⟩ := exec_observe (step sampleSha512 id)
    (fun t => ∃ st ∈ t.procs[1]?, 0 ∈ placed st) emptySystem
    (storeA++.call (.read readA (fun _ => 0))::unlinkedMeanwhile) (by decide +kernel)
  obtain ⟨s,hs,hl⟩ := exec_observe (step sampleSha512 id)
    (fun s => s.procs.length = 1) emptySystem storeA (by decide +kernel)
  have hl := of_decide_eq_true hl
  rw [exec_append,hs] at hr
  obtain ⟨st,hst,hplaced,_⟩ := sparing_run_reads (fun l => List.Perm.refl (id l)) storeA
    unlinkedMeanwhile readA (fun _ => 0) s t hs hr hc
  obtain ⟨st',hst',h₀⟩ := of_decide_eq_true hp
  have heq : st' = st := by
    rw [hl] at hst
    exact Option.some.inj (hst'.symm.trans hst)
  subst heq
  obtain ⟨as,u,a,has,_,_,_,_,hwritten⟩ := hplaced 0 h₀
  have hblock := hwritten (unlinkedMeanwhile_noCollision as has)
  exact ⟨s,t,st',as,hs,hr,hc,hst,h₀,has,hblock⟩

theorem exec_oneState (hq : ∀ l, (qsort l).Perm l) {s t : System} {i : ℕ} {st : Stage}
    (hinv : SysInv sha512 ∅ s) (hi : s.procs[i]? = some st)
    (hok : OneState (fun _ => False) r₀ s.ctx st) (acts : List Action)
    (hc : Meets (step sha512 qsort) (Sparing sha512) s acts)
    (he : exec (step sha512 qsort) s acts = some t) :
    SysInv sha512 ∅ t ∧ ∃ st', t.procs[i]? = some st' ∧
      OneState (PassesThrough sha512 qsort s acts) r₀ t.ctx st' := by
  induction acts using List.reverseRecOn generalizing t with
  | nil =>
    cases he
    exact ⟨hinv,st,hi,oneState_mono (fun _ h => h.elim) hok⟩
  | append_singleton as a ih =>
    obtain ⟨m,hm,ha⟩ := exec_snoc_some _ he
    obtain ⟨hc₁,hc₂⟩ := meets_append _ _ _ _ _ hc
    obtain ⟨hinv',st',hst',hok'⟩ := ih hc₁ hm
    obtain ⟨hclean,hspare⟩ := (hc₂ m hm).1
    have hnow : PassesThrough sha512 qsort s (as++[a]) m := ⟨as,List.prefix_append ..,hm⟩
    exact ⟨sysInv_step hinv' hclean.1 hclean.2 (by simp) ha,
      step_oneState hq hinv' hnow hst' (oneState_mono (fun u hu => passes_snoc a hu) hok') hspare ha⟩

theorem volume_read (r : ReadReq) (c : Context) : Volume.read (volume c) r =
    ((presentRun (lookupPair r c) r.numBlocks 0).map
      (fun q => c.toMasterFile.block q.masterBlockIndex)).flatten := by
  unfold Volume.read
  rw [←presentRun_map]
  have hsame : (fun i => (volume c).blocks r.path (r.startBlock+i)) = fun j =>
      (lookupPair r c j).map (fun q => c.toMasterFile.block q.masterBlockIndex) := by
    funext j
    simp only [volume,lookupPair,Context.lookupByFileBlock,Option.map_map,Function.comp_def]
  rw [hsame]

theorem seenIn_read {u : System} {f : MasterFile} {r : ReadReq} {pairs : List BlockPair} {g n : ℕ}
    {buf : Buffer} (h : SeenIn u r₀ f pairs (.readDone r pairs g buf (.ok n))) :
    slice buf 0 n = Volume.read (volume u.ctx) r₀ := by
  obtain ⟨hperm,_,_,hplaced,hres⟩ := h
  obtain ⟨hg,rfl⟩ := hres n rfl
  rw [List.take_of_length_le hg] at hplaced
  rw [volume_read,hperm.length_eq,slice_pieces,←lookupPairs_run]
  refine congrArg List.flatten ?_
  have hidx := lookupPairs_positions r₀ u.ctx r₀.numBlocks
  rw [←hidx,List.map_map]
  apply List.map_congr_left
  intro q hq
  rw [lookupPairs_run] at hq
  obtain ⟨x,rfl,a,ha,hbytes⟩ := hplaced q (hperm.mem_iff.mpr hq)
  obtain ⟨j,hj⟩ := presentRun_mem hq
  obtain ⟨b,hb,rfl⟩ := Option.map_eq_some_iff.mp hj
  have hab : b = a := Option.some.inj (hb.symm.trans ha)
  subst hab
  rw [Function.comp_apply]
  exact hbytes

/-- A read that returns shows the volume of one state between its call and its
return, whatever other calls do meanwhile. -/
theorem sparing_read_atomic (hq : ∀ l, (qsort l).Perm l) (before during : List Action)
    (r : ReadReq) (buf : Buffer) (s t : System) (st : Stage) (n : ℕ)
    (hs : Reaches sha512 qsort before s)
    (ht : exec (step sha512 qsort) s (.call (.read r buf)::during) = some t)
    (hc : Meets (step sha512 qsort) (Sparing sha512) emptySystem
      (before++.call (.read r buf)::during))
    (hst : t.procs[s.procs.length]? = some st) (hn : resultOf st = some (.ok n)) :
    ∃ as u, as <+: during ∧ exec (step sha512 qsort) s (.call (.read r buf)::as) = some u ∧
      slice (bufferOf st) 0 n = Volume.read (volume u.ctx) r := by
  obtain ⟨m,hm,hdur⟩ := exec_cons_some _ ht
  obtain ⟨hc₁,hc₂⟩ := meets_append _ _ _ _ _ hc
  obtain ⟨_,hc₃⟩ := hc₂ s hs
  have hinv : SysInv sha512 ∅ s := exec_invariant (step sha512 qsort) (Sparing sha512)
    (SysInv sha512 ∅) (fun _ _ _ hi hc hs => sysInv_step hi hc.1.1 hc.1.2 (by simp) hs)
    emptySystem s before (sysInv_empty ∅) hc₁ hs
  have hcall := step_call_some sha512 qsort hm
  have hk : m.procs[s.procs.length]? = some (Call.read r buf).start := by
    rw [hcall]
    exact List.getElem?_concat_length
  have hinv' : SysInv sha512 ∅ m := by
    rw [hcall]
    exact sysInv_call _ hinv
  obtain ⟨_,st',hst',hok⟩ := exec_oneState hq hinv' hk (start_oneState _ m.ctx r buf) during
    (hc₃ m hm) hdur
  have heq : st' = st := Option.some.inj (hst'.symm.trans hst)
  subst heq
  cases st' with
  | readDone r' pairs g buf' res =>
    cases hn
    obtain ⟨u,⟨as,hp,he⟩,hseen⟩ := hok n rfl
    refine ⟨as,u,hp,?_,seenIn_read hseen⟩
    rw [exec,hm]
    exact he
  | done res => exact hok.elim
  | _ => cases hn

theorem sparing_read_atomic_unlinked : ∃ s t st as u, Reaches sampleSha512 id storeA s ∧
    exec (step sampleSha512 id) s (.call (.read readA (fun _ => 0))::unlinkedMeanwhile) = some t ∧
    Meets (step sampleSha512 id) (Sparing sampleSha512) emptySystem
      (storeA++.call (.read readA (fun _ => 0))::unlinkedMeanwhile) ∧
    t.procs[s.procs.length]? = some st ∧ as <+: unlinkedMeanwhile ∧
    exec (step sampleSha512 id) s (.call (.read readA (fun _ => 0))::as) = some u ∧
    slice (bufferOf st) 0 4096 = Volume.read (volume u.ctx) readA := by
  have hc : Meets (step sampleSha512 id) (Sparing sampleSha512) emptySystem
      (storeA++.call (.read readA (fun _ => 0))::unlinkedMeanwhile) := by
    decide +kernel
  obtain ⟨t,hr,hp⟩ := exec_observe (step sampleSha512 id)
    (fun t => ∃ st ∈ t.procs[1]?, resultOf st = some (.ok 4096)) emptySystem
    (storeA++.call (.read readA (fun _ => 0))::unlinkedMeanwhile) (by decide +kernel)
  obtain ⟨s,hs,hl⟩ := exec_observe (step sampleSha512 id)
    (fun s => s.procs.length = 1) emptySystem storeA (by decide +kernel)
  have hl := of_decide_eq_true hl
  rw [exec_append,hs] at hr
  obtain ⟨st,hst,hres⟩ := of_decide_eq_true hp
  have hst : t.procs[s.procs.length]? = some st := by
    rw [hl]
    exact hst
  obtain ⟨as,u,hp,hu,hread⟩ := sparing_read_atomic (fun l => List.Perm.refl l) storeA
    unlinkedMeanwhile readA (fun _ => 0) s t st 4096 hs hr hc hst hres
  exact ⟨s,t,st,as,u,hs,hr,hc,hst,hp,hu,hread⟩

end ArchivalDedup.AtomicCalls
