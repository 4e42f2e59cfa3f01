import Mathlib.Data.Finset.Basic
import ArchivalDedup.Library.EffectTrace

/-!
# Logs of heap accesses

A heap is the set of addresses that are allocated. An access allocates an
address that is not, or uses or frees one that is; anything else faults, and a
log that goes through has no use after free, no double free and no address that
was handed out twice. A log that goes from the empty heap to the empty heap
leaks nothing.
-/

set_option autoImplicit false

namespace ArchivalDedup.HeapLog
open ArchivalDedup.Interleaving ArchivalDedup.EffectTrace

universe u v w
variable {σ : Type u} {α : Type v} {π : Type w} [DecidableEq π]

inductive Access (π : Type w) where
  | alloc (a : π)
  | use (a : π)
  | free (a : π)
  deriving DecidableEq

def access (live : Finset π) : Access π → Option (Finset π)
  | .alloc a => if a ∈ live then none else some (insert a live)
  | .use a => if a ∈ live then some live else none
  | .free a => if a ∈ live then some (live.erase a) else none

/-- The log goes through, from one heap to the other. -/
def Passes (live : Finset π) (log : List (Access π)) (live' : Finset π) : Prop :=
  exec access live log = some live'

theorem passes_nil (live : Finset π) : Passes live [] live := rfl

theorem passes_append {live live' live'' : Finset π} {log log' : List (Access π)}
    (h : Passes live log live') (h' : Passes live' log' live'') :
    Passes live (log++log') live'' := by
  rw [Passes,exec_append,show exec access live log = some live' from h]
  exact h'

theorem passes_alloc {live : Finset π} {a : π} (h : a ∉ live) :
    Passes live [.alloc a] (insert a live) := by
  simp [Passes,exec,access,h]

theorem passes_use {live : Finset π} {a : π} (h : a ∈ live) : Passes live [.use a] live := by
  simp [Passes,exec,access,h]

theorem passes_free {live : Finset π} {a : π} (h : a ∈ live) :
    Passes live [.free a] (live.erase a) := by
  simp [Passes,exec,access,h]

theorem passes_uses {live : Finset π} (l : List π) (h : ∀ a ∈ l, a ∈ live) :
    Passes live (l.map .use) live := by
  induction l with
  | nil => exact passes_nil live
  | cons a l ih =>
    exact passes_append (passes_use (h a (List.mem_cons_self ..)))
      (ih (fun b hb => h b (List.mem_cons_of_mem _ hb)))

theorem passes_frees {live : Finset π} (l : List π) (hd : l.Nodup) (h : ∀ a ∈ l, a ∈ live) :
    Passes live (l.map .free) (live \ l.toFinset) := by
  induction l generalizing live with
  | nil => simpa using passes_nil live
  | cons a l ih =>
    obtain ⟨hnot,hd⟩ := List.nodup_cons.mp hd
    have hrest : ∀ b ∈ l, b ∈ live.erase a := fun b hb =>
      Finset.mem_erase.mpr ⟨fun he => hnot (he ▸ hb),h b (List.mem_cons_of_mem _ hb)⟩
    have hend := passes_append (passes_free (h a (List.mem_cons_self ..))) (ih hd hrest)
    rw [Finset.erase_sdiff_comm,←Finset.sdiff_insert,←List.toFinset_cons] at hend
    exact hend

theorem access_count {live live' : Finset π} {e : Access π} (h : access live e = some live')
    (a : π) : (if a ∈ live then 1 else 0)+[e].count (.alloc a) =
      (if a ∈ live' then 1 else 0)+[e].count (.free a) := by
  cases e with
  | alloc b =>
    simp only [access] at h
    split_ifs at h with hb
    cases h
    by_cases hab : a = b
    · subst hab
      simp [hb]
    · simp [Ne.symm hab,hab]
  | use b =>
    simp only [access] at h
    split_ifs at h
    cases h
    simp
  | free b =>
    simp only [access] at h
    split_ifs at h with hb
    cases h
    by_cases hab : a = b
    · subst hab
      simp [hb]
    · simp [Ne.symm hab,hab]

theorem passes_count {live live' : Finset π} {log : List (Access π)} (h : Passes live log live')
    (a : π) : (if a ∈ live then 1 else 0)+log.count (.alloc a) =
      (if a ∈ live' then 1 else 0)+log.count (.free a) := by
  induction log generalizing live with
  | nil =>
    cases h
    rfl
  | cons e log ih =>
    obtain ⟨m,hm,ht⟩ := exec_cons_some access h
    have h₁ := access_count hm a
    have h₂ := ih ht
    rw [List.count_cons,List.count_cons]
    simp only [List.count_cons,List.count_nil] at h₁
    omega

/-- The rule for systems: when the log of every admitted step leads from the heap
before it to the heap after it, so does the log of a run. -/
theorem exec_passes (step : σ → α → Option σ) (log : σ → α → List (Access π)) (heap : σ → Finset π)
    (cond : σ → α → Prop) (inv : σ → Prop)
    (hstep : ∀ s a t, inv s → cond s a → step s a = some t →
      inv t ∧ Passes (heap s) (log s a) (heap t))
    (s t : σ) (as : List α) (hi : inv s) (hc : Meets step cond s as)
    (he : exec step s as = some t) :
    Passes (heap s) (trace step (fun s a => some (log s a)) s as).flatten (heap t) := by
  induction as generalizing s with
  | nil =>
    cases he
    exact passes_nil _
  | cons a as ih =>
    obtain ⟨m,hm,ht⟩ := exec_cons_some step he
    obtain ⟨him,hp⟩ := hstep s a m hi hc.1 hm
    rw [trace_cons step _ as hm,Option.toList_some,List.singleton_append,List.flatten_cons]
    exact passes_append hp (ih m him (hc.2 m hm) ht)

end ArchivalDedup.HeapLog
