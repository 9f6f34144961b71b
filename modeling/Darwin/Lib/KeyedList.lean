import Mathlib.Data.List.Nodup

/-! # Lists of records with a key

No two records of the list have one key. What is done at a key is done at the place of its record.
-/
namespace Darwin.Lib
open List
variable {α κ : Type*} {key : α → κ} {pre post : List α} {a : α}

/-- The record at a place of the list is the only one with its key. -/
structure Keyed (key : α → κ) (pre : List α) (a : α) (post : List α) : Prop where
  before : ∀ x ∈ pre, key x ≠ key a
  behind : ∀ x ∈ post, key x ≠ key a

theorem keyed_of_nodup (h : ((pre ++ a :: post).map key).Nodup) : Keyed key pre a post := by
  rw [map_append, map_cons, nodup_append] at h
  obtain ⟨-, hcons, hdisjoint⟩ := h
  refine ⟨fun x hx => ?_, fun x hx heq => ?_⟩
  · exact hdisjoint _ (mem_map_of_mem hx) _ mem_cons_self
  · exact (nodup_cons.mp hcons).1 (heq ▸ mem_map_of_mem hx)

namespace Keyed
variable [DecidableEq κ] (h : Keyed key pre a post)
include h

theorem find : (pre ++ a :: post).find? (fun x => key x = key a) = some a := by
  refine List.find?_eq_some_iff_append.mpr ⟨decide_eq_true rfl, pre, post, rfl, fun x hx => ?_⟩
  simpa using h.before x hx

theorem takeWhile : (pre ++ a :: post).takeWhile (fun x => key x ≠ key a) = pre := by
  rw [takeWhile_append_of_pos (fun x hx => decide_eq_true (h.before x hx)),
    takeWhile_cons_of_neg (by simp), append_nil]

theorem dropWhile : (pre ++ a :: post).dropWhile (fun x => key x ≠ key a) = a :: post := by
  rw [dropWhile_append_of_pos (fun x hx => decide_eq_true (h.before x hx)),
    dropWhile_cons_of_neg (by simp)]

theorem filter : (pre ++ a :: post).filter (fun x => key x ≠ key a) = pre ++ post := by
  rw [filter_append, filter_cons_of_neg (by simp),
    filter_eq_self.mpr (fun x hx => decide_eq_true (h.before x hx)),
    filter_eq_self.mpr (fun x hx => decide_eq_true (h.behind x hx))]

theorem map (f : α → α) :
    (pre ++ a :: post).map (fun x => if key x = key a then f x else x) = pre ++ f a :: post := by
  have hpre : pre.map (fun x => if key x = key a then f x else x) = pre.map id :=
    map_congr_left (fun x hx => if_neg (h.before x hx))
  have hpost : post.map (fun x => if key x = key a then f x else x) = post.map id :=
    map_congr_left (fun x hx => if_neg (h.behind x hx))
  rw [map_append, map_cons, hpre, hpost, if_pos rfl, map_id, map_id]

end Keyed

end Darwin.Lib
