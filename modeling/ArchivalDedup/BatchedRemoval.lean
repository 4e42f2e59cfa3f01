import ArchivalDedup.Passthrough

/-!
# Removing a range is removing its blocks one by one

`remove_block_dedup` puts a slot on the free list as soon as its last reference
is gone. `remove_blocks_dedup_batch` keeps the slots of its range in a list of its
own, whose head is the slot released last, and puts that list in front of the
free list at the end. The two leave the same store, in whatever state it was.
-/

set_option autoImplicit false

namespace ArchivalDedup.BatchedRemoval
open ArchivalDedup.MetaIndex ArchivalDedup.Passthrough

def removeBlockDedup (path : Path) (blockIndex : ℕ) (c : Context) : Context :=
  match c.lookupByFileBlock path blockIndex with
  | none => c
  | some info =>
    let d := (c.removeFileBlock path blockIndex).fetchSub info
    if (c.cell info).refcount = 1 then
      -- `g_slist_prepend` under the free-list mutex, before the object goes
      ((d.releaseSlots [(d.cell info).masterBlockIndex]).removeHash (d.cell info).hash).free info
    else d

def removeSingly (path : Path) (startBlock endBlock : ℕ) (c : Context) : Context :=
  (List.range' startBlock (endBlock-startBlock)).foldl (fun d i => removeBlockDedup path i d) c

variable (path : Path)

theorem removeBlock_release (i : ℕ) (c : Context) (slots : List ℕ) :
    (removeBlock path i c slots).1.releaseSlots (removeBlock path i c slots).2 =
      removeBlockDedup path i (c.releaseSlots slots) := by
  have hlookup : (c.releaseSlots slots).lookupByFileBlock path i = c.lookupByFileBlock path i := rfl
  unfold removeBlock removeBlockDedup
  rw [hlookup]
  cases h : c.lookupByFileBlock path i with
  | none => rfl
  | some info =>
    by_cases hr : (c.cell info).refcount = 1
    · have hdrop : (c.removeFileBlock path i).dropReference slots info =
          ((((c.removeFileBlock path i).fetchSub info).removeHash (c.cell info).hash).free info,
            (c.cell info).masterBlockIndex::slots) := if_pos hr
      have hhash : (((c.releaseSlots slots).removeFileBlock path i).fetchSub info).cell info =
          ((c.removeFileBlock path i).fetchSub info).cell info := rfl
      simp only [hdrop,show ((c.releaseSlots slots).cell info).refcount = 1 from hr,if_true,hhash]
      rw [Context.fetchSub,setRefcount_masterBlockIndex,setRefcount_hash]
      rfl
    · have hdrop : (c.removeFileBlock path i).dropReference slots info =
          ((c.removeFileBlock path i).fetchSub info,slots) := if_neg hr
      simp only [hdrop,show ¬ ((c.releaseSlots slots).cell info).refcount = 1 from hr,if_false]
      rfl

theorem removeBlocks_release (n i : ℕ) (c : Context) (slots : List ℕ) :
    (removeBlocks path n i c slots).1.releaseSlots (removeBlocks path n i c slots).2 =
      (List.range' i n).foldl (fun d j => removeBlockDedup path j d) (c.releaseSlots slots) := by
  induction n generalizing i c slots with
  | zero => rfl
  | succ n ih =>
    rw [List.range'_succ,List.foldl_cons,←removeBlock_release]
    exact ih (i+1) _ _

/-- A batch removal and the loop of single removals leave the same tables, the
same counters and the same free list, in order. -/
theorem batch_removal_exact (startBlock endBlock : ℕ) (c : Context) :
    removeBlocksDedupBatch path startBlock endBlock c = removeSingly path startBlock endBlock c :=
  removeBlocks_release path (endBlock-startBlock) startBlock c []

end ArchivalDedup.BatchedRemoval
