import Mathlib.Data.Set.Finite.Basic
import Mathlib.Order.WellFoundedSet
import Mathlib.Logic.Relation

/-! # Chains

Things that each have at most one successor. When there is no cycle and only finitely many
have a successor, every chain ends, and a walk along it finds the end. A new link makes a
cycle exactly when its source is reachable from its target.
-/
namespace Darwin.Lib.Chain
open Relation Function

variable {α : Type} {next : α → Option α} {a b c e : α}

def Link (next : α → Option α) (a b : α) : Prop := next a = some b

def Reaches (next : α → Option α) : α → α → Prop := ReflTransGen (Link next)

def Acyclic (next : α → Option α) : Prop := ∀ a, ¬ TransGen (Link next) a a

/-- The end of the chain from `a`. -/
def walk (next : α → Option α) : ℕ → α → Option α
  | 0, _ => none
  | fuel + 1, a =>
    match next a with
    | none => some a
    | some b => walk next fuel b

theorem link_unique : Relator.RightUnique (Link next) := fun _ _ _ hb hc =>
  Option.some.inj (hb.symm.trans hc)

theorem Reaches.eq_of_end (h : Reaches next e b) (he : next e = none) : b = e := by
  rcases ReflTransGen.cases_head h with rfl | ⟨c, hc, -⟩
  · rfl
  · rw [Link, he] at hc
    cases hc

theorem Reaches.reaches_end (h : Reaches next a b) (he : Reaches next a e) (hend : next e = none) :
    Reaches next b e := by
  rcases ReflTransGen.total_of_right_unique link_unique h he with hbe | heb
  · exact hbe
  · rw [Reaches.eq_of_end heb hend]
    exact ReflTransGen.refl

theorem walk_none (fuel : ℕ) (h : next a = none) : walk next (fuel + 1) a = some a := by
  rw [walk, h]

theorem walk_some (fuel : ℕ) (h : next a = some b) : walk next (fuel + 1) a = walk next fuel b := by
  rw [walk, h]

theorem walk_end : ∀ {fuel : ℕ} {a : α}, walk next fuel a = some e →
    Reaches next a e ∧ next e = none := by
  intro fuel
  induction fuel with
  | zero =>
    intro a h
    cases h
  | succ fuel ih =>
    intro a h
    rw [walk] at h
    split at h
    · next ha =>
      cases h
      exact ⟨ReflTransGen.refl, ha⟩
    · next b hb =>
      obtain ⟨hreach, hend⟩ := ih h
      exact ⟨ReflTransGen.head hb hreach, hend⟩

theorem walk_mono : ∀ {fuel fuel' : ℕ} {a : α}, walk next fuel a = some e → fuel ≤ fuel' →
    walk next fuel' a = some e := by
  intro fuel
  induction fuel with
  | zero =>
    intro fuel' a h
    cases h
  | succ fuel ih =>
    intro fuel' a h hle
    obtain ⟨k, rfl⟩ : ∃ k, fuel' = k + 1 := ⟨fuel' - 1, by omega⟩
    rw [walk] at h ⊢
    split at h
    · exact h
    · exact ih h (Nat.le_of_succ_le_succ hle)

theorem Acyclic.strictOrder (h : Acyclic next) :
    IsStrictOrder α (fun a b => TransGen (Link next) b a) where
  irrefl := h
  trans _ _ _ hab hbc := hbc.trans hab

theorem Acyclic.exists_walk (h : Acyclic next) (hfin : {a | next a ≠ none}.Finite) (a : α) :
    ∃ fuel e, walk next fuel a = some e := by
  have horder := h.strictOrder
  by_cases ha : next a = none
  · refine ⟨1, a, ?_⟩
    rw [walk, ha]
  · have hwf : {a | next a ≠ none}.WellFoundedOn (fun a b => TransGen (Link next) b a) :=
      hfin.wellFoundedOn
    refine hwf.induction (P := fun a => ∃ fuel e, walk next fuel a = some e) ha ?_
    intro x hx ih
    obtain ⟨y, hy⟩ := Option.ne_none_iff_exists'.mp hx
    have hstep : ∀ fuel e, walk next fuel y = some e → walk next (fuel + 1) x = some e := by
      intro fuel e hw
      rw [walk, hy]
      exact hw
    by_cases hend : next y = none
    · refine ⟨2, y, hstep 1 y ?_⟩
      rw [walk, hend]
    · obtain ⟨fuel, e, hw⟩ := ih y hend (TransGen.single hy)
      exact ⟨fuel + 1, e, hstep fuel e hw⟩

theorem cycle_forward (h : TransGen (Link next) a a) (hab : Link next a b) : TransGen (Link next) b b := by
  obtain ⟨c, hac, hca⟩ := TransGen.head'_iff.mp h
  obtain rfl := link_unique hac hab
  exact TransGen.tail' hca hab

theorem cycle_reaches (h : TransGen (Link next) a a) (hab : Reaches next a b) :
    TransGen (Link next) b b := by
  induction hab with
  | refl => exact h
  | tail _ hcd ih => exact cycle_forward ih hcd

theorem ends_iff (hfin : {b | Reaches next a b ∧ next b ≠ none}.Finite) :
    (∃ fuel e, walk next fuel a = some e) ↔ ∀ b, Reaches next a b → ¬ TransGen (Link next) b b := by
  classical
  constructor
  · rintro ⟨fuel, e, hw⟩ b hb hcycle
    obtain ⟨hae, hend⟩ := walk_end hw
    have hback := cycle_reaches hcycle (hb.reaches_end hae hend)
    obtain ⟨c, hec, -⟩ := TransGen.head'_iff.mp hback
    rw [Link, hend] at hec
    cases hec
  · intro hacyclic
    -- the links that the chain comes to have no cycle at all
    obtain ⟨next', hnext'⟩ : ∃ next' : α → Option α,
        next' = fun x => if Reaches next a x then next x else none := ⟨_, rfl⟩
    have hlink : ∀ {x y}, Link next' x y → Reaches next a x ∧ Link next x y := by
      intro x y hxy
      rw [Link, hnext'] at hxy
      exact Option.ite_none_right_eq_some.mp hxy
    have hacyclic' : Acyclic next' := by
      intro x hx
      obtain ⟨y, hxy, -⟩ := TransGen.head'_iff.mp hx
      exact hacyclic x (hlink hxy).1 (TransGen.mono (fun _ _ h => (hlink h).2) _ _ hx)
    have hfin' : {b | next' b ≠ none}.Finite := by
      apply hfin.subset
      intro x hx
      obtain ⟨y, hxy⟩ := Option.ne_none_iff_exists'.mp hx
      exact ⟨(hlink hxy).1, Option.ne_none_iff_exists'.mpr ⟨y, (hlink hxy).2⟩⟩
    have hsame : ∀ {fuel x}, Reaches next a x → walk next' fuel x = walk next fuel x := by
      intro fuel
      induction fuel with
      | zero => exact fun _ => rfl
      | succ fuel ih =>
        intro x hx
        have heq : next' x = next x := by
          rw [hnext']
          exact if_pos hx
        rw [walk, walk, heq]
        cases hy : next x with
        | none => rfl
        | some y => exact ih (hx.tail hy)
    obtain ⟨fuel, e, hw⟩ := hacyclic'.exists_walk hfin' a
    exact ⟨fuel, e, (hsame ReflTransGen.refl).symm.trans hw⟩

variable [DecidableEq α]

theorem reaches_update (h : Reaches (update next a (some b)) c e) :
    Reaches next c e ∨ Reaches next c a := by
  induction h with
  | refl => exact .inl ReflTransGen.refl
  | @tail x y _ hxy ih =>
    rcases ih with hx | ha
    · by_cases hxa : x = a
      · exact .inr (hxa ▸ hx)
      · rw [Link, update_of_ne hxa] at hxy
        exact .inl (hx.tail hxy)
    · exact .inr ha

theorem reaches_of_update (h : ¬ Reaches next b a)
    (hr : Reaches (update next a (some b)) b e) : Reaches next b e := by
  rcases reaches_update hr with hr | hr
  · exact hr
  · exact absurd hr h

theorem Acyclic.link (h : Acyclic next) (hnone : next a = none) (hnot : ¬ Reaches next b a) :
    Acyclic (update next a (some b)) := by
  intro x hx
  -- a cycle uses the new link, or it was there before
  have hcycle : TransGen (Link next) x x ∨ Reaches (update next a (some b)) b a := by
    have hgo : ∀ y, TransGen (Link (update next a (some b))) x y →
        TransGen (Link next) x y ∨ (Reaches next x a ∧ Reaches (update next a (some b)) b y) := by
      intro y hy
      induction hy with
      | single hxy =>
        by_cases hxa : x = a
        · subst hxa
          rw [Link, update_self] at hxy
          cases hxy
          exact .inr ⟨ReflTransGen.refl, ReflTransGen.refl⟩
        · rw [Link, update_of_ne hxa] at hxy
          exact .inl (TransGen.single hxy)
      | @tail y z _ hyz ih =>
        rcases ih with hxy | ⟨hxa, hby⟩
        · by_cases hya : y = a
          · subst hya
            rw [Link, update_self] at hyz
            cases hyz
            exact .inr ⟨hxy.to_reflTransGen, ReflTransGen.refl⟩
          · rw [Link, update_of_ne hya] at hyz
            exact .inl (hxy.tail hyz)
        · exact .inr ⟨hxa, hby.tail hyz⟩
    rcases hgo x hx with hold | ⟨hxa, hbx⟩
    · exact .inl hold
    · refine .inr (hbx.trans ?_)
      refine ReflTransGen.mono ?_ _ _ hxa
      intro y z hyz
      have hya : y ≠ a := by
        rintro rfl
        rw [Link, hnone] at hyz
        cases hyz
      rw [Link, update_of_ne hya]
      exact hyz
  rcases hcycle with hold | hnew
  · exact h x hold
  · exact hnot (reaches_of_update hnot hnew)

theorem Acyclic.unlink (h : Acyclic next) (a : α) : Acyclic (update next a none) := by
  intro x hx
  refine h x (TransGen.mono ?_ _ _ hx)
  intro y z hyz
  by_cases hya : y = a
  · rw [Link, hya, update_self] at hyz
    cases hyz
  · rwa [Link, update_of_ne hya] at hyz

theorem walk_update {o : Option α} : ∀ {fuel : ℕ} {c : α}, ¬ Reaches next c a →
    walk (update next a o) fuel c = walk next fuel c := by
  intro fuel
  induction fuel with
  | zero => exact fun _ => rfl
  | succ fuel ih =>
    intro c h
    have hca : c ≠ a := by
      rintro rfl
      exact h ReflTransGen.refl
    rw [walk, walk, update_of_ne hca]
    cases hc : next c with
    | none => rfl
    | some d => exact ih (fun hd => h (ReflTransGen.head hc hd))

theorem finite_update {o : Option α} (hfin : {a | next a ≠ none}.Finite) (a : α) :
    {x | update next a o x ≠ none}.Finite := by
  apply (hfin.insert a).subset
  intro x hx
  by_cases hxa : x = a
  · exact .inl hxa
  · right
    rwa [Set.mem_ofPred_eq, update_of_ne hxa] at hx

end Darwin.Lib.Chain
