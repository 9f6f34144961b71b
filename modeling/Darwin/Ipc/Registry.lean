import Darwin.Ipc.Right
import Darwin.Lib.Run

/-! # The registry of dead-name requests

Over whole runs the table of a port is a map from indices to requests. Requests are made, cancelled
and renamed while any number of threads grow the table: `ipc_port_dngrow` unlocks the port between
the choice of a size and the change.
-/
namespace Darwin.Ipc
open Darwin.Lib RequestTable Function

/-- The operations of these programs, on one port. -/
def requestSpec : Program.Spec KernelOp.Ans Port where
  pre _ _ := True
  post
    | .ipLock _, p, answer, p' => answer = p ∧ p' = p
    | .ipRead _, p, answer, p' => answer = p ∧ p' = p
    | .ipStore _ q, _, _, p' => p' = q
    | .ipReference _, p, _, p' => p' = p
    | .ipRelease _, p, _, p' => p' = p
    | _, _, _, _ => False

/-- A call with its answer. A growth comes in two parts, with the port unlocked between them. -/
inductive RequestEvent where
  | dnrequest (name : MachPort) (soright : ℕ) (index : Option ℕ)
  | dncancel (index : ℕ) (name : MachPort) (soright : ℕ)
  | dnrename (index : ℕ) (oname nname : MachPort)
  | dngrow (target : Option ℕ) (answer : Except RightReturn Dngrow)
  | dngrowFinish (g : Dngrow) (memory : Option ℕ) (code : RightReturn)

def requestStep (port : ℕ) (p : Port) : RequestEvent → Port → Prop
  | .dnrequest name soright index, p' =>
    (ipcPortDnrequest port name soright).Runs requestSpec p (.ok index) p'
  | .dncancel index name soright, p' =>
    (ipcPortDncancel port name index).Runs requestSpec p (.ok soright) p'
  | .dnrename index oname nname, p' => 0 < index ∧ oname ≠ machPortSmallest ∧ nname ≠ machPortSmallest ∧
    (ipcPortDnrename port index oname nname).Runs requestSpec p (.ok ()) p'
  | .dngrow target answer, p' => (ipcPortDngrow port target).Runs requestSpec p (.ok answer) p'
  | .dngrowFinish g memory code, p' =>
    (Darwin.Ipc.dngrowFinish g memory).Runs requestSpec p (.ok code) p'

/-! ## What is registered -/

/-- The request under an index, with its send-once right. -/
abbrev Registry := ℕ → Option (MachPort × ℕ)

def Registry.after (registry : Registry) : RequestEvent → Registry
  | .dnrequest name soright (some index) => update registry index (some (name, soright))
  | .dncancel index _ _ => update registry index none
  | .dnrename index _ nname =>
    update registry index ((registry index).map (fun r => (nname, r.2)))
  | _ => registry

/-- The answer is right: a new request gets an index that is not in use, and none only when the
table is full; a request that is cancelled or renamed is the one that was made. -/
def Registry.Answers (registry : Registry) (p : Port) : RequestEvent → Prop
  | .dnrequest _ _ (some index) => index ≠ 0 ∧ registry index = none
  | .dnrequest _ _ none => ∀ t, p.ipDnrequests = some t →
    ∀ i, 0 < i → i < t.elements.length → registry i ≠ none
  | .dncancel index name soright => registry index = some (name, soright)
  | .dnrename index oname _ => ∃ soright, registry index = some (oname, soright)
  | _ => True

/-- The table is in order and holds what is registered. -/
structure Registered (p : Port) (registry : Registry) : Prop where
  ok : OkIn p.ipDnrequests
  holds : ∀ i name soright, HoldsIn p.ipDnrequests i name soright ↔
    registry i = some (name, soright)

section rules
variable {port : ℕ} {p q : Port} {b : Bool} {S : Program.Spec KernelOp.Ans Port}

theorem wp_check {Q : Unit → Port → Prop} (h : b = true → Q () p) :
    (assert b).wp S Q (fun _ _ => True) p := by
  cases b with
  | true => exact h rfl
  | false => trivial

theorem wp_portRead {Q : Port → Port → Prop} (h : Q p p) :
    (call (.ipRead port)).wp requestSpec Q (fun _ _ => True) p := by
  refine ⟨trivial, ?_⟩
  rintro (a : Port) p' ⟨ha, hp⟩
  rw [show a = p from ha, hp]
  exact h

theorem wp_portStore {Q : Unit → Port → Prop} (h : Q () q) :
    (call (.ipStore port q)).wp requestSpec Q (fun _ _ => True) p := by
  refine ⟨trivial, ?_⟩
  rintro _ p' hp
  rw [show p' = q from hp]
  exact h

theorem wp_portReference {Q : Unit → Port → Prop} (h : Q () p) :
    (call (.ipReference port)).wp requestSpec Q (fun _ _ => True) p := by
  refine ⟨trivial, ?_⟩
  rintro _ p' rfl
  exact h

theorem wp_portRelease {Q : Unit → Port → Prop} (h : Q () p) :
    (call (.ipRelease port)).wp requestSpec Q (fun _ _ => True) p := by
  refine ⟨trivial, ?_⟩
  rintro _ p' rfl
  exact h

end rules

section steps
variable {port index : ℕ} {p p' : Port} {registry : Registry} {t : RequestTable}
  {name oname nname : MachPort} {soright : ℕ} {target memory : Option ℕ} {g : Dngrow}

theorem holdsIn_iff (hd : p.ipDnrequests = some t) {i so : ℕ} {n : MachPort} :
    HoldsIn p.ipDnrequests i n so ↔ t.Holds i n so := by
  rw [hd]
  constructor
  · rintro ⟨t', ht', hold⟩
    cases ht'
    exact hold
  · exact fun hold => ⟨t, rfl, hold⟩

theorem Registered.of_table (hd : p.ipDnrequests = some t) (hok : t.Ok)
    (hholds : ∀ i n so, t.Holds i n so ↔ registry i = some (n, so)) : Registered p registry := by
  refine ⟨fun t' ht' => ?_, fun i n so => (holdsIn_iff hd).trans (hholds i n so)⟩
  cases hd.symm.trans ht'
  exact hok

theorem Registered.table (h : Registered p registry) (hd : p.ipDnrequests = some t) :
    t.Ok ∧ ∀ i n so, t.Holds i n so ↔ registry i = some (n, so) :=
  ⟨h.ok t hd, fun i n so => (holdsIn_iff hd).symm.trans (h.holds i n so)⟩

theorem holds_of_not_isFree {i : ℕ} (h0 : 0 < i) (hlt : i < t.elements.length) (hfree : ¬ t.IsFree i) :
    t.Holds i (t.request i).iprName (t.request i).notify :=
  ⟨h0, hlt, fun hname => hfree ⟨h0, hlt, hname⟩, rfl⟩

theorem lt_of_named (hname : (t.request index).iprName = name) (hne : name ≠ machPortSmallest) :
    index < t.elements.length := by
  by_contra hge
  rw [request, List.getD_eq_default _ _ (by omega)] at hname
  exact hne hname.symm

theorem dnrequest_wp (h : Registered p registry) :
    (ipcPortDnrequest port name soright).wp requestSpec (fun index p' =>
      registry.Answers p (.dnrequest name soright index) ∧
        Registered p' (registry.after (.dnrequest name soright index))) (fun _ _ => True) p := by
  simp only [ipcPortDnrequest, Program.wp_bind]
  refine wp_portRead (wp_check fun _ => wp_check fun hname => ?_)
  have hname : name ≠ machPortSmallest := of_decide_eq_true hname
  cases hd : p.ipDnrequests with
  | none =>
    refine ⟨fun t ht => ?_, h⟩
    cases hd.symm.trans ht
  | some t =>
    obtain ⟨hok, hholds⟩ := h.table hd
    dsimp only
    split_ifs with hindex
    · refine ⟨fun t' ht' i h0 hlt hnone => ?_, h⟩
      cases hd.symm.trans ht'
      obtain ⟨fl, hfl⟩ := hok.free
      have hused : ¬ t.IsFree i := by
        rw [← hfl.mem, hfl.zero_iff.mp hindex]
        exact List.not_mem_nil
      have hreg := (hholds _ _ _).mp (holds_of_not_isFree h0 hlt hused)
      rw [hnone] at hreg
      cases hreg
    · simp only [Program.wp_bind]
      refine wp_check fun _ => wp_portStore ?_
      have hfree := hok.isFree_iprNext hindex
      have hnone : registry t.iprNext = none := by
        cases hreg : registry t.iprNext with
        | none => rfl
        | some r => exact absurd hfree ((hholds _ r.1 r.2).mpr hreg).not_isFree
      refine ⟨⟨hindex, hnone⟩, .of_table rfl (hok.take hindex hname) fun i n so => ?_⟩
      rw [hok.holds_take hindex hname, hholds, Registry.after]
      by_cases hi : i = t.iprNext
      · subst hi
        rw [update_self, hnone]
        simp [eq_comm]
      · rw [update_of_ne hi]
        simp [hi]

theorem dncancel_wp (h : Registered p registry) :
    (ipcPortDncancel port name index).wp requestSpec (fun soright p' =>
      registry.Answers p (.dncancel index name soright) ∧
        Registered p' (registry.after (.dncancel index name soright))) (fun _ _ => True) p := by
  simp only [ipcPortDncancel, Program.wp_bind]
  refine wp_portRead (wp_check fun _ => wp_check fun hname => wp_check fun hindex => ?_)
  have hname : name ≠ machPortSmallest := of_decide_eq_true hname
  have hindex : index ≠ 0 := of_decide_eq_true hindex
  cases hd : p.ipDnrequests with
  | none => trivial
  | some t =>
    obtain ⟨hok, hholds⟩ := h.table hd
    simp only [Program.wp_bind]
    refine wp_check fun hnamed => wp_portStore ?_
    have hnamed : (t.request index).iprName = name := of_decide_eq_true hnamed
    have hold : t.Holds index name (t.request index).notify :=
      ⟨by omega, lt_of_named hnamed hname, hname, by rw [← hnamed]⟩
    refine ⟨(hholds _ _ _).mp hold, .of_table rfl (hok.giveBack hold) fun i n so => ?_⟩
    rw [hok.holds_giveBack hold, hholds, Registry.after]
    by_cases hi : i = index
    · subst hi
      simp
    · rw [update_of_ne hi]
      simp [hi]

theorem dnrename_wp (h : Registered p registry) (hindex : 0 < index) (ho : oname ≠ machPortSmallest)
    (hn : nname ≠ machPortSmallest) :
    (ipcPortDnrename port index oname nname).wp requestSpec (fun _ p' =>
      registry.Answers p (.dnrename index oname nname) ∧
        Registered p' (registry.after (.dnrename index oname nname))) (fun _ _ => True) p := by
  simp only [ipcPortDnrename, Program.wp_bind]
  refine wp_portRead (wp_check fun _ => ?_)
  cases hd : p.ipDnrequests with
  | none => trivial
  | some t =>
    obtain ⟨hok, hholds⟩ := h.table hd
    simp only [Program.wp_bind]
    refine wp_check fun hnamed => wp_portStore ?_
    have hnamed : (t.request index).iprName = oname := of_decide_eq_true hnamed
    have hold : t.Holds index oname (t.request index).notify :=
      ⟨hindex, lt_of_named hnamed ho, ho, by rw [← hnamed]⟩
    have hreg := (hholds _ _ _).mp hold
    refine ⟨⟨_, hreg⟩, .of_table rfl (hok.rename hold hn) fun i n so => ?_⟩
    rw [holds_rename hold hn, hholds, Registry.after]
    by_cases hi : i = index
    · subst hi
      rw [update_self, hreg]
      simp [eq_comm]
    · rw [update_of_ne hi]
      simp [hi]

theorem dngrow_wp (h : Registered p registry) :
    (ipcPortDngrow port target).wp requestSpec (fun _ p' => Registered p' registry)
      (fun _ _ => True) p := by
  simp only [ipcPortDngrow, Program.wp_bind]
  refine wp_portRead (wp_check fun _ => ?_)
  cases target with
  | none =>
    rw [Program.wp_bind]
    exact wp_portReference h
  | some target =>
    dsimp only
    split_ifs with hlarge hsize
    · exact h
    · exact h
    · rw [Program.wp_bind]
      exact wp_portReference h

theorem copied_fits (h : OkIn p.ipDnrequests) {its address : ℕ} (hsize : ipcTableDnrequests its ≠ 0)
    (hits : p.ipDnrequests.all (fun t => t.iprSize + 1 = its) = true) :
    (copied p.ipDnrequests address its).elements.length ≤ ipcTableDnrequests its := by
  cases hd : p.ipDnrequests with
  | none => exact (one_lt_ipcTableDnrequests hsize).le
  | some t =>
    have hits : t.iprSize + 1 = its := by simpa [hd] using hits
    subst hits
    change t.elements.length ≤ _
    rw [(h t hd).size]
    exact (ipcTableDnrequests_lt hsize).le

theorem dngrowFinish_wp (h : Registered p registry) :
    (dngrowFinish g memory).wp requestSpec (fun _ p' => Registered p' registry)
      (fun _ _ => True) p := by
  cases memory with
  | none =>
    rw [dngrowFinish, Program.wp_bind]
    exact wp_portRelease h
  | some address =>
    rw [dngrowFinish]
    split_ifs with hsize
    · rw [Program.wp_bind]
      exact wp_portRelease h
    · simp only [Program.wp_bind]
      refine ⟨trivial, ?_⟩
      rintro a p' ⟨rfl, rfl⟩
      refine wp_portRelease ?_
      split_ifs with hsame
      · obtain ⟨hok, hholds⟩ := grown_spec h.ok address (copied_fits h.ok hsize hsame.2.2)
        exact wp_portStore (.of_table rfl hok fun i n so => (hholds i n so).trans (h.holds i n so))
      · exact h

theorem requestStep_registered {e : RequestEvent} (h : Registered p registry)
    (hs : requestStep port p e p') : registry.Answers p e ∧ Registered p' (registry.after e) := by
  cases e with
  | dnrequest => exact Program.Runs.post hs (dnrequest_wp h)
  | dncancel => exact Program.Runs.post hs (dncancel_wp h)
  | dnrename =>
    obtain ⟨hindex, ho, hn, hs⟩ := hs
    exact Program.Runs.post hs (dnrename_wp h hindex ho hn)
  | dngrow => exact ⟨trivial, Program.Runs.post hs (dngrow_wp h)⟩
  | dngrowFinish => exact ⟨trivial, Program.Runs.post hs (dngrowFinish_wp h)⟩

theorem requestRun_registered {es : List RequestEvent} (hd : p.ipDnrequests = none)
    (hr : Run (requestStep port) p es p') :
    Registered p' (es.foldl Registry.after (fun _ => none)) := by
  induction hr with
  | nil =>
    refine ⟨fun t ht => ?_, fun i n so => ⟨?_, ?_⟩⟩
    · cases hd.symm.trans ht
    · rintro ⟨t, ht, -⟩
      cases hd.symm.trans ht
    · intro hreg
      cases hreg
  | snoc _ hs ih =>
    rw [List.foldl_append]
    exact (requestStep_registered ih hs).2

end steps

/-- In every run from a port without a table, whatever the growths and their interleaving: the
table holds the requests that were made and not cancelled, under the names they have now, its
free list is in order, and the answer to every next call is right. -/
theorem dead_name_registry_exact {port : ℕ} {p p' : Port} {es : List RequestEvent}
    (hd : p.ipDnrequests = none) (hr : Run (requestStep port) p es p') :
    Registered p' (es.foldl Registry.after (fun _ => none)) ∧
      ∀ e p'', requestStep port p' e p'' →
        (es.foldl Registry.after (fun _ => none)).Answers p' e :=
  ⟨requestRun_registered hd hr,
    fun _ _ hs => (requestStep_registered (requestRun_registered hd hr) hs).1⟩

/-- A table of the first size is made, and its one free element taken. -/
theorem dead_name_registry_exact_first : ∃ p', Registered p'
    ([.dngrowFinish ⟨7, none, 0⟩ (some 4096) .success, .dnrequest 3 9 (some 1)].foldl
      Registry.after (fun _ => none)) := by
  have hsize : ipcTableDnrequests 0 = 2 := by decide +kernel
  have hgrow : requestStep 7 ⟨true, .receiver 1, 3, 0, 0, 0, none, none, none⟩
      (.dngrowFinish ⟨7, none, 0⟩ (some 4096) .success) ⟨true, .receiver 1, 3, 0, 0, 0, none, none,
        some ⟨4096, 0, [⟨machPortSmallest, 1⟩, ⟨machPortSmallest, 0⟩]⟩⟩ := by
    simp only [requestStep, dngrowFinish, hsize, grown]
    exact ⟨_, _, ⟨rfl, rfl⟩, (), _, rfl, (), _, rfl, rfl, rfl⟩
  have htake : requestStep 7 ⟨true, .receiver 1, 3, 0, 0, 0, none, none,
      some ⟨4096, 0, [⟨machPortSmallest, 1⟩, ⟨machPortSmallest, 0⟩]⟩⟩ (.dnrequest 3 9 (some 1))
      ⟨true, .receiver 1, 3, 0, 0, 0, none, none,
        some ⟨4096, 0, [⟨machPortSmallest, 0⟩, ⟨3, 9⟩]⟩⟩ :=
    ⟨_, _, ⟨rfl, rfl⟩, (), _, rfl, rfl, rfl⟩
  exact ⟨_, (dead_name_registry_exact rfl (((Run.nil _).snoc hgrow).snoc htake)).1⟩

end Darwin.Ipc
