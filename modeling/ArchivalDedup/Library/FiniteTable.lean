import Mathlib.Data.List.AList

/-!
# Finite tables and the number of keys that hold a value

A table is an association list without repeated keys. The listing order of
its entries carries no meaning: every statement below is about lookups, about
the multiset of entries, or about how often one value is held.
-/

set_option autoImplicit false

namespace ArchivalDedup.FiniteTable

universe u v w

abbrev Table (κ : Type u) (ν : Type v) := AList (fun _ : κ => ν)

variable {κ : Type u} {ν : Type v} [DecidableEq κ]

/-- The value held under a key, with a type that does not mention the key. -/
def find (t : Table κ ν) (k : κ) : Option ν := AList.lookup k t

@[simp] theorem find_empty (k : κ) : find (∅ : Table κ ν) k = none := rfl

theorem entries_perm_erase (t : Table κ ν) (k : κ) (x : ν) (h : find t k = some x) :
    t.entries.Perm (⟨k,x⟩ :: (t.erase k).entries) := by
  have hk : k ∈ t.entries.keys := AList.lookup_isSome.mp (by simp [show AList.lookup k t = some x from h])
  obtain ⟨y,l₁,l₂,_,he,hr⟩ := List.exists_of_kerase hk
  have hy : y = x := by
    have hm : (⟨k,y⟩ : Sigma fun _ : κ => ν) ∈ t.entries := by simp [he]
    have hl := List.mem_dlookup t.nodupKeys hm
    exact Option.some.inj (hl.symm.trans h)
  subst hy
  change t.entries.Perm (⟨k,y⟩ :: List.kerase k t.entries)
  rw [hr,he]
  exact List.perm_middle

theorem erase_absent (t : Table κ ν) (k : κ) (h : find t k = none) : t.erase k = t := by
  apply AList.ext
  exact List.kerase_of_notMem_keys (AList.lookup_eq_none.mp h)

theorem entries_insert_erase (t : Table κ ν) (k : κ) (x : ν) :
    (t.insert k x).entries = ⟨k,x⟩ :: (t.erase k).entries := rfl

theorem insert_erase (t : Table κ ν) (k : κ) (x : ν) : (t.erase k).insert k x = t.insert k x := by
  apply AList.ext
  rw [entries_insert_erase,entries_insert_erase,
    erase_absent (t.erase k) k (AList.lookup_erase k t)]

theorem find_erase (t : Table κ ν) (j k : κ) :
    find (t.erase k) j = if j = k then none else find t j := by
  split_ifs with h
  · subst h
    exact AList.lookup_erase j t
  · exact AList.lookup_erase_ne h

theorem find_insert (t : Table κ ν) (j k : κ) (x : ν) :
    find (t.insert k x) j = if j = k then some x else find t j := by
  split_ifs with h
  · subst h
    exact AList.lookup_insert t
  · exact AList.lookup_insert_ne h

theorem mem_entries_iff (t : Table κ ν) (k : κ) (x : ν) :
    (⟨k,x⟩ : Sigma fun _ : κ => ν) ∈ t.entries ↔ find t k = some x :=
  (List.mem_dlookup_iff t.nodupKeys).symm

theorem entries_length {t : Table κ ν} {ks : List κ} (hn : ks.Nodup)
    (h : ∀ k, find t k ≠ none ↔ k ∈ ks) : t.entries.length = ks.length := by
  have hp : t.keys.Perm ks := by
    refine (List.perm_ext_iff_of_nodup t.keys_nodup hn).mpr ?_
    intro k
    rw [←h k,find,←Option.isSome_iff_ne_none,AList.lookup_isSome]
    exact AList.mem_keys.symm
  rw [←hp.length_eq]
  exact (List.length_map _).symm

theorem find_singleton (t : Table κ ν) (k : κ) (x : ν) (h : t.entries = [⟨k,x⟩]) (j : κ) :
    find t j = if j = k then some x else none := by
  have ht : t = (∅ : Table κ ν).insert k x := by
    apply AList.ext
    rw [h]
    rfl
  rw [ht,find_insert,find_empty]

section Fill

def fill (t : Table κ ν) (l : List (Sigma fun _ : κ => ν)) : Table κ ν :=
  l.foldl (fun t e => t.insert e.1 e.2) t

theorem find_fill_some (t : Table κ ν) (l : List (Sigma fun _ : κ => ν))
    (hl : (l.map Sigma.fst).Nodup) (k : κ) (x : ν) : find (fill t l) k = some x ↔
      ⟨k,x⟩ ∈ l ∨ (k ∉ l.map Sigma.fst ∧ find t k = some x) := by
  induction l generalizing t with
  | nil => simp [fill]
  | cons e l ih =>
    rw [List.map_cons,List.nodup_cons] at hl
    change find (fill (t.insert e.1 e.2) l) k = some x ↔ _
    rw [ih (t.insert e.1 e.2) hl.2,find_insert,List.mem_cons,List.map_cons,List.mem_cons]
    by_cases hk : k = e.1
    · subst hk
      have hnot : (⟨e.1,x⟩ : Sigma fun _ : κ => ν) ∉ l := fun hm =>
        hl.1 (List.mem_map.mpr ⟨_,hm,rfl⟩)
      simp only [hnot,false_or,hl.1,not_false_eq_true,true_and,if_true,Option.some.injEq,
        not_true_eq_false,false_and,or_false]
      constructor
      · rintro rfl
        rfl
      · intro h
        rw [←h]
    · have hne : (⟨k,x⟩ : Sigma fun _ : κ => ν) ≠ e := fun h => hk (congrArg Sigma.fst h)
      simp only [hne,false_or,hk,if_false]

theorem find_fill (l : List (Sigma fun _ : κ => ν)) (hl : (l.map Sigma.fst).Nodup) (k : κ) (x : ν) :
    find (fill ∅ l) k = some x ↔ ⟨k,x⟩ ∈ l := by
  rw [find_fill_some ∅ l hl]
  simp

theorem find_fill_perm (t : Table κ ν) (l : List (Sigma fun _ : κ => ν)) (hl : l.Perm t.entries)
    (k : κ) : find (fill ∅ l) k = find t k := by
  have hn : (l.map Sigma.fst).Nodup := (hl.map Sigma.fst).nodup_iff.mpr t.nodupKeys
  apply Option.ext
  intro x
  rw [find_fill l hn,hl.mem_iff]
  exact mem_entries_iff t k x

end Fill

section Rename

variable {μ : Type w}

theorem entries_perm_map (t : Table κ ν) (t' : Table κ μ) (ρ : ν → μ)
    (h : ∀ k, find t' k = (find t k).map ρ) :
    t'.entries.Perm (t.entries.map (fun e => ⟨e.1,ρ e.2⟩)) := by
  have hkeys : ((t.entries.map (fun e => (⟨e.1,ρ e.2⟩ : Sigma fun _ : κ => μ))).map Sigma.fst).Nodup := by
    rw [List.map_map]
    exact t.nodupKeys
  refine (List.perm_ext_iff_of_nodup (List.Nodup.of_map _ t'.nodupKeys) (List.Nodup.of_map _ hkeys)).mpr ?_
  rintro ⟨k,y⟩
  rw [mem_entries_iff,h k,Option.map_eq_some_iff,List.mem_map]
  constructor
  · rintro ⟨x,hx,rfl⟩
    exact ⟨⟨k,x⟩,(mem_entries_iff t k x).mpr hx,rfl⟩
  · rintro ⟨⟨j,x⟩,hm,heq⟩
    cases heq
    exact ⟨x,(mem_entries_iff t j x).mp hm,rfl⟩

end Rename

section Occurrences

variable [DecidableEq ν]

def occurrences (t : Table κ ν) (x : ν) : ℕ := t.entries.countP (fun e => e.2 = x)

omit [DecidableEq κ] in
@[simp] theorem occurrences_empty (x : ν) : occurrences (∅ : Table κ ν) x = 0 := rfl

omit [DecidableEq κ] in
theorem occurrences_le (t : Table κ ν) (x : ν) : occurrences t x ≤ t.entries.length :=
  List.countP_le_length

theorem occurrences_erase (t : Table κ ν) (k : κ) (x y : ν) (h : find t k = some x) :
    occurrences t y = occurrences (t.erase k) y+if x = y then 1 else 0 := by
  unfold occurrences
  rw [(entries_perm_erase t k x h).countP_eq,List.countP_cons]
  simp

theorem occurrences_insert (t : Table κ ν) (k : κ) (x y : ν) :
    occurrences (t.insert k x) y = occurrences (t.erase k) y+if x = y then 1 else 0 := by
  unfold occurrences
  rw [entries_insert_erase,List.countP_cons]
  simp

theorem occurrences_pos (t : Table κ ν) (x : ν) :
    0 < occurrences t x ↔ ∃ k, find t k = some x := by
  unfold occurrences
  rw [List.countP_pos_iff]
  constructor
  · rintro ⟨⟨k,y⟩,hm,hy⟩
    have hy : y = x := by simpa using hy
    exact ⟨k,(mem_entries_iff t k x).mp (hy ▸ hm)⟩
  · rintro ⟨k,h⟩
    exact ⟨⟨k,x⟩,(mem_entries_iff t k x).mpr h,by simp⟩

theorem occurrences_map {μ : Type w} [DecidableEq μ] (t : Table κ ν) (t' : Table κ μ) (ρ : ν → μ)
    (h : ∀ k, find t' k = (find t k).map ρ) (x : ν)
    (hx : ∀ k y, find t k = some y → ρ y = ρ x → y = x) : occurrences t' (ρ x) = occurrences t x := by
  unfold occurrences
  rw [(entries_perm_map t t' ρ h).countP_eq,List.countP_map]
  apply List.countP_congr
  rintro ⟨k,y⟩ hm
  have hy := hx k y ((mem_entries_iff t k y).mp hm)
  simp only [Function.comp_apply,decide_eq_true_eq]
  exact ⟨hy,fun heq => by rw [heq]⟩

end Occurrences

section Values

variable {β : Type w}

def valuesBy (f : ν → β) (t : Table κ ν) : List β := t.entries.map (fun e => f e.2)

omit [DecidableEq κ] in
@[simp] theorem values_by_empty (f : ν → β) : valuesBy f (∅ : Table κ ν) = [] := rfl

theorem values_by_erase (f : ν → β) (t : Table κ ν) (k : κ) (x : ν) (h : find t k = some x) :
    (valuesBy f t).Perm (f x :: valuesBy f (t.erase k)) := by
  unfold valuesBy
  exact (entries_perm_erase t k x h).map (fun e : (Sigma fun _ : κ => ν) => f e.2)

theorem values_by_insert (f : ν → β) (t : Table κ ν) (k : κ) (x : ν) (h : find t k = none) :
    valuesBy f (t.insert k x) = f x :: valuesBy f t := by
  unfold valuesBy
  rw [entries_insert_erase,erase_absent t k h]
  rfl

theorem values_by_congr (f g : ν → β) (t : Table κ ν)
    (h : ∀ k x, find t k = some x → f x = g x) : valuesBy f t = valuesBy g t := by
  apply List.map_congr_left
  rintro ⟨k,x⟩ hm
  exact h k x ((mem_entries_iff t k x).mp hm)

theorem mem_images (f : ν → β) (t : Table κ ν) (k : κ) (b : β) :
    (k,b) ∈ t.entries.map (fun e => (e.1,f e.2)) ↔ (find t k).map f = some b := by
  rw [List.mem_map,Option.map_eq_some_iff]
  constructor
  · rintro ⟨⟨j,x⟩,hm,heq⟩
    cases heq
    exact ⟨x,(mem_entries_iff t j x).mp hm,rfl⟩
  · rintro ⟨x,hx,rfl⟩
    exact ⟨⟨k,x⟩,(mem_entries_iff t k x).mpr hx,rfl⟩

theorem values_by_perm {μ : Type w} (f : ν → β) (g : μ → β) (t : Table κ ν) (t' : Table κ μ)
    (h : ∀ k, (find t k).map f = (find t' k).map g) : (valuesBy f t).Perm (valuesBy g t') := by
  have hkeys : (t.entries.map (fun e => (e.1,f e.2))).Nodup :=
    List.Nodup.of_map Prod.fst (by rw [List.map_map]; exact t.nodupKeys)
  have hkeys' : (t'.entries.map (fun e => (e.1,g e.2))).Nodup :=
    List.Nodup.of_map Prod.fst (by rw [List.map_map]; exact t'.nodupKeys)
  have hperm : (t.entries.map (fun e => (e.1,f e.2))).Perm
      (t'.entries.map (fun e => (e.1,g e.2))) := by
    refine (List.perm_ext_iff_of_nodup hkeys hkeys').mpr ?_
    rintro ⟨k,b⟩
    rw [mem_images,mem_images,h]
  have hsnd := hperm.map Prod.snd
  rwa [List.map_map,List.map_map] at hsnd

theorem mem_values_by (f : ν → β) (t : Table κ ν) (b : β) :
    b ∈ valuesBy f t ↔ ∃ k x, find t k = some x ∧ f x = b := by
  unfold valuesBy
  rw [List.mem_map]
  constructor
  · rintro ⟨⟨k,x⟩,hm,rfl⟩
    exact ⟨k,x,(mem_entries_iff t k x).mp hm,rfl⟩
  · rintro ⟨k,x,h,rfl⟩
    exact ⟨⟨k,x⟩,(mem_entries_iff t k x).mpr h,rfl⟩

end Values

end ArchivalDedup.FiniteTable
