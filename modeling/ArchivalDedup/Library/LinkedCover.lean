import Mathlib.Data.Finset.Card
import Mathlib.Data.Finset.Dedup
import ArchivalDedup.Library.ConsecutiveRun

/-!
# Covers by linked parts

Some cells follow others. A part is linked when each of its cells but the first
follows another cell of the part. A cell that follows none can only be the first
of a part, so a cover has at least as many parts as there are such heads; and it
has no more when every part starts at a head of its own. On numbers that follow
each other by one, a sorted list without repetitions breaks once for every head.
-/

set_option autoImplicit false

namespace ArchivalDedup.LinkedCover

universe u
variable {α : Type u} [DecidableEq α] (follows : α → α → Prop) [DecidableRel follows]
variable (cells : Finset α)

def heads : Finset α := cells.filter (fun y => ∀ x ∈ cells, ¬ follows x y)

structure Covers (parts : List (α × Finset α)) : Prop where
  linked : ∀ p ∈ parts, ∀ y ∈ p.2, y = p.1 ∨ ∃ x ∈ p.2, follows x y
  inside : ∀ p ∈ parts, p.2 ⊆ cells
  all : ∀ y ∈ cells, ∃ p ∈ parts, y ∈ p.2

variable {follows cells} {parts : List (α × Finset α)}

theorem heads_first (h : Covers follows cells parts) :
    heads follows cells ⊆ (parts.map Prod.fst).toFinset := by
  intro y hy
  obtain ⟨hc,hn⟩ := Finset.mem_filter.mp hy
  obtain ⟨p,hp,hyp⟩ := h.all y hc
  rcases h.linked p hp y hyp with rfl | ⟨x,hx,hf⟩
  · exact List.mem_toFinset.mpr (List.mem_map_of_mem hp)
  · exact absurd hf (hn x (h.inside p hp hx))

theorem card_heads_le (h : Covers follows cells parts) :
    (heads follows cells).card ≤ parts.length := by
  calc (heads follows cells).card ≤ (parts.map Prod.fst).toFinset.card :=
        Finset.card_le_card (heads_first h)
    _ ≤ (parts.map Prod.fst).length := List.toFinset_card_le _
    _ = parts.length := List.length_map _

theorem length_of_heads (hd : (parts.map Prod.fst).Nodup)
    (hh : ∀ p ∈ parts, p.1 ∈ heads follows cells) : parts.length ≤ (heads follows cells).card := by
  have hsub : (parts.map Prod.fst).toFinset ⊆ heads follows cells := by
    intro y hy
    obtain ⟨p,hp,rfl⟩ := List.mem_map.mp (List.mem_toFinset.mp hy)
    exact hh p hp
  calc parts.length = (parts.map Prod.fst).length := (List.length_map _).symm
    _ = (parts.map Prod.fst).toFinset.card := (List.toFinset_card_of_nodup hd).symm
    _ ≤ (heads follows cells).card := Finset.card_le_card hsub

section Numbers

def starts (nums : Finset ℕ) : Finset ℕ := heads (fun x y => y = x+1) nums

theorem mem_starts {nums : Finset ℕ} {y : ℕ} :
    y ∈ starts nums ↔ y ∈ nums ∧ ∀ x ∈ nums, y ≠ x+1 := Finset.mem_filter

variable {nums : Finset ℕ} {x : ℕ}

theorem card_starts_gap (h : ∀ y ∈ nums, x < y) (hn : x+1 ∉ nums) :
    (starts (insert x nums)).card = (starts nums).card+1 := by
  have hx : x ∉ starts nums := fun hx => Nat.lt_irrefl x (h x (mem_starts.mp hx).1)
  rw [←Finset.card_insert_of_notMem hx]
  congr 1
  ext y
  simp only [mem_starts,Finset.mem_insert,forall_eq_or_imp]
  constructor
  · rintro ⟨rfl | hy,_,hall⟩
    · exact Or.inl rfl
    · exact Or.inr ⟨hy,hall⟩
  · rintro (rfl | ⟨hy,hall⟩)
    · refine ⟨Or.inl rfl,by omega,?_⟩
      intro z hz
      have := h z hz
      omega
    · exact ⟨Or.inr hy,fun he => hn (he ▸ hy),hall⟩

theorem card_starts_next (h : ∀ y ∈ nums, x < y) (hn : x+1 ∈ nums) :
    (starts (insert x nums)).card = (starts nums).card := by
  have hx : x ∉ (starts nums).erase (x+1) := fun hx =>
    Nat.lt_irrefl x (h x (mem_starts.mp (Finset.mem_of_mem_erase hx)).1)
  have hhead : x+1 ∈ starts nums := by
    refine mem_starts.mpr ⟨hn,?_⟩
    intro z hz
    have := h z hz
    omega
  have hset : starts (insert x nums) = insert x ((starts nums).erase (x+1)) := by
    ext y
    simp only [mem_starts,Finset.mem_insert,Finset.mem_erase,forall_eq_or_imp]
    constructor
    · rintro ⟨rfl | hy,hne,hall⟩
      · exact Or.inl rfl
      · exact Or.inr ⟨hne,hy,hall⟩
    · rintro (rfl | ⟨hne,hy,hall⟩)
      · refine ⟨Or.inl rfl,by omega,?_⟩
        intro z hz
        have := h z hz
        omega
      · exact ⟨Or.inr hy,hne,hall⟩
  rw [hset,Finset.card_insert_of_notMem hx,Finset.card_erase_add_one hhead]

theorem breaks_sorted {β : Type u} (num : β → ℕ) {xs : List β}
    (h : (xs.map num).Pairwise (· ≤ ·)) : ConsecutiveRun.breaks num xs+(xs.map num).toFinset.card =
      (starts (xs.map num).toFinset).card+xs.length := by
  induction xs with
  | nil => rfl
  | cons x xs ih =>
    obtain ⟨hx,hxs⟩ := List.pairwise_cons.mp h
    have hrest := ih hxs
    rw [ConsecutiveRun.breaks,List.map_cons,List.toFinset_cons,List.length_cons]
    cases xs with
    | nil =>
      have hempty : ∀ y ∈ (∅ : Finset ℕ), num x < y := by simp
      have hcard : (starts {num x}).card = 1 :=
        card_starts_gap hempty (Finset.notMem_empty _)
      simp [ConsecutiveRun.breaks,hcard]
    | cons y ys =>
      have hy : num x ≤ num y := hx (num y) (by simp)
      have hle : ∀ z ∈ ((y::ys).map num).toFinset, num y ≤ z := by
        intro z hz
        rcases List.mem_cons.mp (List.mem_toFinset.mp hz) with rfl | hz
        · exact Nat.le_refl _
        · exact (List.pairwise_cons.mp hxs).1 z hz
      have hmem : num y ∈ ((y::ys).map num).toFinset := List.mem_toFinset.mpr (by simp)
      simp only [List.head?_cons,Option.map_some,Option.some.injEq]
      by_cases heq : num x = num y
      · rw [if_neg (by omega),Finset.insert_eq_of_mem (heq ▸ hmem)]
        omega
      · have hlt : ∀ z ∈ ((y::ys).map num).toFinset, num x < z := by
          intro z hz
          have := hle z hz
          omega
        rw [Finset.card_insert_of_notMem (fun hin => Nat.lt_irrefl _ (hlt _ hin))]
        by_cases hnext : num y = num x+1
        · rw [if_pos hnext,card_starts_next hlt (hnext ▸ hmem)]
          omega
        · rw [if_neg hnext,card_starts_gap hlt]
          · omega
          · intro hin
            have := hle _ hin
            omega

end Numbers

end ArchivalDedup.LinkedCover
