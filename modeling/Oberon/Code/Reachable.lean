import Oberon.Code.Program

/-!
# Reachable blocks

A block is reachable if some path of jumps and branches leads to it from the first block.
Jumps to blocks that do not exist lead nowhere.
-/

namespace Oberon.Code.Function

/-- Setting a flag leaves one flag less to set. -/
theorem count_false_setIfInBounds_lt {seen : Array Bool} {label : Nat}
    (h : seen[label]? = some false) :
    (seen.setIfInBounds label true).count false < seen.count false := by
  obtain ⟨hlt, hfalse⟩ := Array.getElem?_eq_some_iff.mp h
  have hpos : 0 < seen.count false := Array.count_pos_iff.mpr (hfalse ▸ Array.getElem_mem hlt)
  have hcount : (seen.set label true hlt).count false = seen.count false - 1 := by
    simp [Array.count_set, hfalse]
  rw [Array.setIfInBounds, dif_pos hlt, hcount]
  omega

/-- Marks what can be reached from the blocks in `pending`, given what is marked already.
Each round takes one pending block, and marks it if it exists and is new; its successors are
pending then. -/
def mark (f : Function) (pending : List Nat) (seen : Array Bool) : Array Bool :=
  match pending with
  | [] => seen
  | label :: rest =>
    if seen[label]? = some false then
      mark f (f.successors label ++ rest) (seen.setIfInBounds label true)
    else
      mark f rest seen
-- every round marks a block, or leaves the marks and one pending block less
termination_by (seen.count false, pending.length)
decreasing_by
  · exact Prod.Lex.left _ _ (count_false_setIfInBounds_lt ‹_›)
  · exact Prod.Lex.right _ (Nat.lt_succ_self _)

/-- For each block, whether it is reachable. -/
def reachable (f : Function) : Array Bool :=
  mark f [0] (Array.replicate f.blocks.size false)

end Oberon.Code.Function
