import NginxConf.Kind

/-!
# Sets of kinds

A set of kinds is a number whose bit at the place of a kind says whether the kind is a member.
No operation sets a bit beyond the last kind, so sets with the same members are equal.
-/

namespace NginxConf

/-- A set of kinds. -/
structure KindSet where
  bits : Nat
deriving DecidableEq, Repr, Inhabited

namespace KindSet

def empty : KindSet := ⟨0⟩

/-- The set with one member. -/
def singleton (k : Kind) : KindSet := ⟨1 <<< k.index⟩

/-- The members of either set. -/
def union (a b : KindSet) : KindSet := ⟨a.bits ||| b.bits⟩

/-- Whether a kind is a member. -/
def contains (s : KindSet) (k : Kind) : Bool := s.bits.testBit k.index

/-- The set of the kinds of a list. -/
def ofList (ks : List Kind) : KindSet := ks.foldl (fun s k => s.union (singleton k)) empty

/-- The members, in the order in which kinds are listed. -/
def toList (s : KindSet) : List Kind := Kind.all.filter s.contains

@[simp]
theorem contains_empty (k : Kind) : empty.contains k = false := by
  simp [contains, empty]

@[simp]
theorem contains_singleton (a k : Kind) : (singleton a).contains k = decide (a = k) := by
  simp only [contains, singleton, Nat.one_shiftLeft, Nat.testBit_two_pow]
  by_cases h : a = k
  · simp [h]
  · have hne : a.index ≠ k.index := fun e => h (Kind.index_inj e)
    simp [h, hne]

@[simp]
theorem contains_union (a b : KindSet) (k : Kind) :
    (a.union b).contains k = (a.contains k || b.contains k) := by
  simp [contains, union]

/-- **The set of a list has the members of the list.** -/
theorem contains_ofList (ks : List Kind) (k : Kind) : (ofList ks).contains k = ks.contains k := by
  suffices h : ∀ s : KindSet, (ks.foldl (fun s k => s.union (singleton k)) s).contains k =
      (s.contains k || ks.contains k) by simpa [ofList] using h empty
  induction ks with
  | nil => simp
  | cons a ks ih =>
    intro s
    rw [List.foldl_cons, ih]
    by_cases h : k = a <;> simp [h, eq_comm]

/-- The members of a set are listed. -/
theorem mem_toList {s : KindSet} {k : Kind} : k ∈ s.toList ↔ s.contains k = true := by
  simp [toList, Kind.mem_all]

end KindSet

end NginxConf
