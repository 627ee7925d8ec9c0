/-! Lists without repetitions, in the order in which their elements are first seen. -/

set_option autoImplicit false

namespace Rollup

variable {α : Type} [BEq α]

def addNew (seen : List α) (x : α) : List α :=
  if seen.contains x then seen else seen ++ [x]

/-- The elements of a list, each where it first occurs. -/
def firstSeen (xs : List α) : List α :=
  xs.foldl addNew []

theorem mem_addNew [LawfulBEq α] {seen : List α} {x y : α} :
    y ∈ addNew seen x ↔ y ∈ seen ∨ y = x := by
  unfold addNew
  split
  · rename_i h
    have : x ∈ seen := by simpa using h
    constructor
    · exact Or.inl
    · rintro (h | rfl) <;> assumption
  · simp

theorem nodup_addNew [LawfulBEq α] {seen : List α} {x : α} (h : seen.Nodup) :
    (addNew seen x).Nodup := by
  unfold addNew
  split
  · exact h
  · rename_i absent
    have : x ∉ seen := by simpa using absent
    refine List.nodup_append.mpr ⟨h, by simp, ?_⟩
    rintro a ha b hb rfl
    exact this (by simpa using (List.mem_singleton.mp hb) ▸ ha)

theorem mem_foldl_addNew [LawfulBEq α] {xs seen : List α} {y : α} :
    y ∈ xs.foldl addNew seen ↔ y ∈ seen ∨ y ∈ xs := by
  induction xs generalizing seen with
  | nil => simp
  | cons x rest ih => simp [ih, mem_addNew, or_assoc]

@[simp] theorem mem_firstSeen [LawfulBEq α] {xs : List α} {y : α} :
    y ∈ firstSeen xs ↔ y ∈ xs := by
  simp [firstSeen, mem_foldl_addNew]

theorem nodup_foldl_addNew [LawfulBEq α] {xs seen : List α} (h : seen.Nodup) :
    (xs.foldl addNew seen).Nodup := by
  induction xs generalizing seen with
  | nil => exact h
  | cons x rest ih => exact ih (nodup_addNew h)

theorem nodup_firstSeen [LawfulBEq α] (xs : List α) : (firstSeen xs).Nodup :=
  nodup_foldl_addNew List.nodup_nil

end Rollup
