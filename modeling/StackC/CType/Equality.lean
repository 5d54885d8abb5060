import StackC.CType.Basic

/-!
Equality of types is decidable. Two types are equal when shape and size agree, and two struct types
when number, tag and members agree as well.

A struct that names another twice holds one value in two places, so a chain of such structs is a
small value with exponentially many paths. The test therefore looks at numbers, tags and names
before it descends, and does not descend at all where both sides are the same value in memory.
-/

namespace StackC

namespace CType

mutual

def decEq : (a b : CType) → Decidable (a = b)
  | .primitive k m, .primitive k' n =>
    decidable_of_iff (k = k' ∧ m = n) (by simp)
  | .pointer a m, .pointer b n =>
    match withPtrEqDecEq a b fun _ => decEq a b with
    | .isTrue h => decidable_of_iff (m = n) (by simp [h])
    | .isFalse h => .isFalse (by simp [h])
  | .array a k m, .array b l n =>
    match withPtrEqDecEq a b fun _ => decEq a b with
    | .isTrue h => decidable_of_iff (k = l ∧ m = n) (by simp [h])
    | .isFalse h => .isFalse (by simp [h])
  | .struct ⟨i, t, ms⟩ m, .struct ⟨j, u, ns⟩ n =>
    if h : i = j ∧ t = u ∧ m = n then
      match decEqMembers ms ns with
      | .isTrue hs => .isTrue (by simp [h, hs])
      | .isFalse hs => .isFalse (by simp [hs])
    else .isFalse fun e => h (by simp at e; simp [e])
  | .primitive .., .pointer .. | .primitive .., .array .. | .primitive .., .struct ..
  | .pointer .., .primitive .. | .pointer .., .array .. | .pointer .., .struct ..
  | .array .., .primitive .. | .array .., .pointer .. | .array .., .struct ..
  | .struct .., .primitive .. | .struct .., .pointer .. | .struct .., .array .. =>
    .isFalse (by simp)

def decEqMembers : (as bs : List (Member CType)) → Decidable (as = bs)
  | [], [] => .isTrue rfl
  | [], _ :: _ | _ :: _, [] => .isFalse (by simp)
  | ⟨x, a, m⟩ :: as, ⟨y, b, n⟩ :: bs =>
    if h : x = y ∧ m = n then
      match withPtrEqDecEq a b fun _ => decEq a b with
      | .isTrue ha =>
        match decEqMembers as bs with
        | .isTrue hs => .isTrue (by simp [h, ha, hs])
        | .isFalse hs => .isFalse (by simp [hs])
      | .isFalse ha => .isFalse (by simp [ha])
    else .isFalse fun e => h (by simp at e; simp [e])

end

instance : DecidableEq CType := fun a b => withPtrEqDecEq a b fun _ => decEq a b

end CType

deriving instance DecidableEq for Member
deriving instance DecidableEq for Layout

end StackC
