import Decouple.Program.Ref

/-!
# Loops

A loop is given by the list of its blocks and by three blocks that tie it to the
rest of the function: the header, at which control enters, the preheader, which
it comes from, and the exit, which it goes to. The list fixes the order in which
the loop's blocks are visited. That the header is in the list and the other two
are not is asked for where a loop is split.
-/

namespace Decouple

structure Loop where
  header : BlockRef
  preheader : BlockRef
  exit : BlockRef
  blocks : List BlockRef
deriving DecidableEq, Repr

instance : Membership BlockRef Loop := ⟨fun loop b => b ∈ loop.blocks⟩

instance (b : BlockRef) (loop : Loop) : Decidable (b ∈ loop) :=
  inferInstanceAs (Decidable (b ∈ loop.blocks))

theorem Loop.mem_iff {b : BlockRef} {loop : Loop} : b ∈ loop ↔ b ∈ loop.blocks := Iff.rfl

end Decouple
