import Mathlib.Algebra.GroupWithZero.Nat

/-!
# Sizes of tables

A literal of `Fin n` needs that `n` is not zero. For the sizes of fixed tables this is one fact with a
name, which the definitions that have such literals share.
-/

namespace Linux011

instance neZero_two : NeZero 2 := ⟨by decide⟩

instance neZero_three : NeZero 3 := ⟨by decide⟩

instance neZero_seven : NeZero 7 := ⟨by decide⟩

instance neZero_eight : NeZero 8 := ⟨by decide⟩

instance neZero_nine : NeZero 9 := ⟨by decide⟩

instance neZero_17 : NeZero 17 := ⟨by decide⟩

instance neZero_20 : NeZero 20 := ⟨by decide⟩

instance neZero_32 : NeZero 32 := ⟨by decide⟩

instance neZero_64 : NeZero 64 := ⟨by decide⟩

instance neZero_512 : NeZero 512 := ⟨by decide⟩

end Linux011
