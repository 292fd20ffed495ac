import Mathlib

/-!
# Distinct members

`List.eraseDups` keeps the first of equal members, so it lists what there is in order of first appearance. It can be
taken part by part (`eraseDups_flatten`). A list whose members belong to distinct keys, one for each, has one member
for a key that is there and none for any other (`filter_of_forall₂`).
-/

namespace Rollup

section EraseDups

variable {α : Type} [BEq α] [LawfulBEq α]

/-- A last member counts unless it was there before. -/
theorem eraseDups_concat (xs : List α) (x : α) :
    (xs ++ [x]).eraseDups = if x ∈ xs then xs.eraseDups else xs.eraseDups ++ [x] := by
  rw [List.eraseDups_append, List.removeAll]
  by_cases h : x ∈ xs
  · rw [if_pos h, List.filter_cons_of_neg (by simpa using h)]
    simp
  · rw [if_neg h, List.filter_cons_of_pos (by simpa using h)]
    simp [List.eraseDups_cons]

theorem nodup_eraseDups (xs : List α) : xs.eraseDups.Nodup := by
  induction xs using List.reverseRecOn with
  | nil => exact List.nodup_nil
  | append_singleton xs x ih =>
    rw [eraseDups_concat]
    by_cases h : x ∈ xs
    · rw [if_pos h]
      exact ih
    · rw [if_neg h, List.nodup_append]
      refine ⟨ih, List.nodup_singleton x, ?_⟩
      intro y hy z hz hyz
      rw [List.mem_singleton] at hz
      subst hz hyz
      exact h (List.mem_eraseDups.mp hy)

theorem eraseDups_perm {xs ys : List α} (h : xs.Perm ys) : xs.eraseDups.Perm ys.eraseDups := by
  refine (List.perm_ext_iff_of_nodup (nodup_eraseDups xs) (nodup_eraseDups ys)).mpr fun x => ?_
  rw [List.mem_eraseDups, List.mem_eraseDups, h.mem_iff]

theorem eraseDups_append_eraseDups (xs ys : List α) : (xs ++ ys.eraseDups).eraseDups = (xs ++ ys).eraseDups := by
  induction ys using List.reverseRecOn with
  | nil => rfl
  | append_singleton ys y ih =>
    rw [← List.append_assoc, eraseDups_concat ys, eraseDups_concat (xs ++ ys)]
    by_cases h : y ∈ ys
    · rw [if_pos h, if_pos (List.mem_append_right xs h), ih]
    · rw [if_neg h, ← List.append_assoc, eraseDups_concat]
      simp only [List.mem_append, List.mem_eraseDups, ih]

theorem eraseDups_eraseDups_append (xs ys : List α) : (xs.eraseDups ++ ys).eraseDups = (xs ++ ys).eraseDups := by
  induction ys using List.reverseRecOn with
  | nil => simpa using eraseDups_append_eraseDups [] xs
  | append_singleton ys y ih =>
    rw [← List.append_assoc, ← List.append_assoc, eraseDups_concat, eraseDups_concat]
    simp only [List.mem_append, List.mem_eraseDups, ih]

/-- What is distinct in the parts of a list is distinct in the list, in the same order. -/
theorem eraseDups_flatten (xss : List (List α)) :
    (xss.map List.eraseDups).flatten.eraseDups = xss.flatten.eraseDups := by
  induction xss with
  | nil => rfl
  | cons xs xss ih =>
    rw [List.map_cons, List.flatten_cons, List.flatten_cons, eraseDups_eraseDups_append,
      ← eraseDups_append_eraseDups xs xss.flatten, ← ih, eraseDups_append_eraseDups]

end EraseDups

theorem mem_eraseDups_map_iff {α β : Type} [DecidableEq α] [BEq α] [LawfulBEq α] {f : β → α} {xs : List β} {key : α} :
    key ∈ (xs.map f).eraseDups ↔ xs.filter (f · = key) ≠ [] := by
  rw [List.mem_eraseDups, List.mem_map, ne_eq, List.filter_eq_nil_iff]
  simp

/-- Members that belong to distinct keys are found by their keys. -/
theorem filter_of_forall₂ {α β : Type} [DecidableEq α] {f : β → α} {P : α → β → Prop} {keys : List α} {xs : List β}
    (h : List.Forall₂ (fun key x => f x = key ∧ P key x) keys xs) (hn : keys.Nodup) (key : α) :
    (key ∈ keys ∧ ∃ x, xs.filter (f · = key) = [x] ∧ P key x) ∨ (key ∉ keys ∧ xs.filter (f · = key) = []) := by
  induction h with
  | nil => exact .inr ⟨List.not_mem_nil, rfl⟩
  | @cons key' x keys xs hx _ ih =>
    obtain ⟨hfx, hP⟩ := hx
    obtain ⟨hnew, hn⟩ := List.nodup_cons.mp hn
    by_cases hk : key' = key
    · subst hk
      rcases ih hn with ⟨hm, -⟩ | ⟨-, hnone⟩
      · exact absurd hm hnew
      · refine .inl ⟨List.mem_cons_self, x, ?_, hP⟩
        rw [List.filter_cons_of_pos (by simpa using hfx), hnone]
    · rw [List.filter_cons_of_neg (by simpa [hfx] using hk)]
      rcases ih hn with ⟨hm, hx⟩ | ⟨hm, hnone⟩
      · exact .inl ⟨List.mem_cons_of_mem key' hm, hx⟩
      · exact .inr ⟨by simp [hm, Ne.symm hk], hnone⟩

end Rollup
