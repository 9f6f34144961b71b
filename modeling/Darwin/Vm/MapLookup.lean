import Darwin.Vm.MapOk

/-! # Lookups and the hint

The hint is only where a search begins. Whatever it is, a lookup finds the entry at the address, or
the last one before.
-/
namespace Darwin.Vm
open Darwin.Lib List

variable {m : VmMap} {l p q : List ℕ} {a e : ℕ} {found : Bool}

/-- The right answer to a lookup: the only entry at the address, or the last entry that ends at or
before it, the header where there is none. -/
structure VmMap.LookupAnswer (m : VmMap) (l : List ℕ) (a : ℕ) (found : Bool) (e : ℕ) : Prop where
  found_iff : found = true ↔ ∃ x ∈ l, (m.entry x).vmeStart ≤ a ∧ a < (m.entry x).vmeEnd
  unique : found = true → ∀ x ∈ l, (m.entry x).vmeStart ≤ a ∧ a < (m.entry x).vmeEnd ↔ x = e
  last : found = false → ∃ p q, l = p ++ q ∧ e = p.getLastD 0 ∧
    (∀ x ∈ p, (m.entry x).vmeEnd ≤ a) ∧ ∀ x ∈ q, a < (m.entry x).vmeEnd

/-- The hint test of `vm_map_lookup`, and the full lookup where the hint does not help. -/
def VmMap.lookupHint (m : VmMap) (vaddr : ℕ) : Except Stop (Bool × ℕ × VmMap) :=
  let entry := m.hint
  if entry = 0 ∨ vaddr < (m.entry entry).vmeStart ∨ (m.entry entry).vmeEnd ≤ vaddr then
    m.vmMapLookupEntry vaddr
  else
    .ok (true, entry, m)

theorem MapOk.cover_unique (h : MapOk m l) {x y : ℕ} (hx : x ∈ l) (hy : y ∈ l)
    (hxa : (m.entry x).vmeStart ≤ a ∧ a < (m.entry x).vmeEnd)
    (hya : (m.entry y).vmeStart ≤ a ∧ a < (m.entry y).vmeEnd) : x = y := by
  obtain ⟨p, q, rfl⟩ := append_of_mem hy
  rcases mem_append.mp hx with hx | hx
  · have := h.sorted hx (mem_cons_self (a := y) (l := q))
    omega
  · rcases mem_cons.mp hx with rfl | hx
    · rfl
    · have := h.end_le hx
      omega

theorem Answers.lookupAnswer (h : MapOk m (p ++ q)) (hsplit : Split m a p q)
    (hans : Answers m a p q found e) : m.LookupAnswer (p ++ q) a found e := by
  rcases hans with ⟨rfl, hstart, q, rfl⟩ | ⟨rfl, rfl, hafter⟩
  · have he : e ∈ p ++ e :: q := mem_append_right _ mem_cons_self
    have hcov : (m.entry e).vmeStart ≤ a ∧ a < (m.entry e).vmeEnd :=
      ⟨hstart, hsplit.after e mem_cons_self⟩
    refine ⟨⟨fun _ => ⟨e, he, hcov⟩, fun _ => rfl⟩, fun _ x hx => ⟨fun hx' => ?_, ?_⟩, nofun⟩
    · exact h.cover_unique hx he hx' hcov
    · rintro rfl
      exact hcov
  · refine ⟨⟨nofun, ?_⟩, nofun, fun _ => ⟨p, q, rfl, rfl, hsplit.before, hsplit.after⟩⟩
    rintro ⟨x, hx, hxa⟩
    rcases mem_append.mp hx with hx | hx
    · have := hsplit.before x hx
      omega
    · have := hafter x hx
      omega

theorem MapOk.split_unique {p' q' : List ℕ} (hsplit : Split m a p q) (hsplit' : Split m a p' q')
    (heq : p ++ q = p' ++ q') : p = p' ∧ q = q' := by
  have hfilter : ∀ {p q : List ℕ}, Split m a p q →
      (p ++ q).filter (fun x => decide ((m.entry x).vmeEnd ≤ a)) = p := by
    intro p q h
    rw [filter_append, filter_eq_self.mpr, filter_eq_nil_iff.mpr, append_nil]
    · intro x hx
      have := h.after x hx
      simpa using this
    · intro x hx
      exact decide_eq_true (h.before x hx)
  have hp : p = p' := by
    rw [← hfilter hsplit, heq, hfilter hsplit']
  subst hp
  exact ⟨rfl, append_cancel_left heq⟩

theorem Answers.unique {found' : Bool} {e' : ℕ} (hsplit : Split m a p q)
    (hans : Answers m a p q found e) (hans' : Answers m a p q found' e') :
    found = found' ∧ e = e' := by
  rcases hans with ⟨rfl, hstart, q, rfl⟩ | ⟨rfl, rfl, hafter⟩
  · rcases hans' with ⟨rfl, -, q', heq⟩ | ⟨-, -, hafter'⟩
    · exact ⟨rfl, (List.cons.inj heq).1⟩
    · have := hafter' e mem_cons_self
      omega
  · rcases hans' with ⟨-, hstart, q', rfl⟩ | ⟨rfl, rfl, -⟩
    · have := hafter e' mem_cons_self
      omega
    · exact ⟨rfl, rfl⟩

/-- Whatever the hint is, a lookup ends with the same answer, and so does the test of the hint in
front of it. -/
theorem lookup_ignores_hint (h : MapOk m l) (a : ℕ) : ∃ found e, m.LookupAnswer l a found e ∧
    ∀ hint ∈ 0 :: l, (∃ hint' ∈ 0 :: l, VmMap.vmMapLookupEntry { m with hint := hint } a =
        .ok (found, e, { m with hint := hint' })) ∧
      ∃ hint' ∈ 0 :: l, VmMap.lookupHint { m with hint := hint } a =
        .ok (found, e, { m with hint := hint' }) := by
  obtain ⟨p, q, found, e, -, rfl, hsplit, hans, -, -, -⟩ := vmMapLookupEntry_spec h a
  refine ⟨found, e, hans.lookupAnswer h hsplit, fun hint hhint => ?_⟩
  have hfull : ∃ hint' ∈ 0 :: (p ++ q), VmMap.vmMapLookupEntry { m with hint := hint } a =
      .ok (found, e, { m with hint := hint' }) := by
    obtain ⟨p', q', found', e', hint', heq, hsplit', hans', hmem, -, hrun⟩ :=
      vmMapLookupEntry_spec (h.setHint hhint) a
    obtain ⟨rfl, rfl⟩ := MapOk.split_unique hsplit ⟨hsplit'.before, hsplit'.after⟩ heq
    obtain ⟨rfl, rfl⟩ := Answers.unique hsplit hans hans'
    exact ⟨hint', hmem, hrun⟩
  refine ⟨hfull, ?_⟩
  rw [VmMap.lookupHint]
  by_cases hmiss : hint = 0 ∨ a < (m.entry hint).vmeStart ∨ (m.entry hint).vmeEnd ≤ a
  · rw [if_pos hmiss]
    exact hfull
  · rw [if_neg hmiss]
    -- the hint is the entry at the address
    rw [not_or, not_or, Nat.not_lt, Nat.not_le] at hmiss
    obtain ⟨hne, hcov⟩ := hmiss
    have hmem := (mem_cons.mp hhint).resolve_left hne
    have hanswer := hans.lookupAnswer h hsplit
    have hfound := hanswer.found_iff.mpr ⟨hint, hmem, hcov⟩
    obtain rfl := (hanswer.unique hfound hint hmem).mp hcov
    rw [hfound]
    exact ⟨hint, hhint, rfl⟩

/-- Two pages, a gap of two pages and a third page. -/
def threePageMap : VmMap where
  next e := if e < 3 then e + 1 else 0
  prev e := if e = 0 then 3 else e - 1
  entry e :=
    ⟨if e = 3 then 20480 else 4096 * e, if e = 0 then 65536 else if e = 3 then 24576 else 4096 * e + 4096, .null,
      0, false, false, false, false, false, vmProtDefault, vmProtAll, .copy, 0, 0⟩
  fresh := 4
  nentries := 3
  size := 12288
  isMainMap := true
  refCount := 1
  hint := 1
  firstFree := 2

theorem threePageMap_ok : MapOk threePageMap [1, 2, 3] := by
  refine ⟨⟨by decide, by decide⟩, rfl, ⟨?_, by decide⟩, by decide, by decide, by decide, by decide⟩
  decide

/-- An address in the gap, with every hint. -/
theorem lookup_ignores_hint_three : ∃ found e, threePageMap.LookupAnswer [1, 2, 3] 16000 found e ∧
    ∀ hint ∈ [0, 1, 2, 3],
      (∃ hint' ∈ [0, 1, 2, 3], VmMap.vmMapLookupEntry { threePageMap with hint := hint } 16000 =
        .ok (found, e, { threePageMap with hint := hint' })) ∧
      ∃ hint' ∈ [0, 1, 2, 3], VmMap.lookupHint { threePageMap with hint := hint } 16000 =
        .ok (found, e, { threePageMap with hint := hint' }) :=
  lookup_ignores_hint threePageMap_ok 16000

end Darwin.Vm
