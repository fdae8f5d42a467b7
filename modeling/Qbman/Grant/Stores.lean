import Qbman.Eqcr.Array
import Qbman.Release.Ring

/-!
# Granted slots, access by access

`grantSys` runs a call at once. In `storesSys` a call makes one access at a time, and the hardware
may take a slot between any two of them. A call publishes its command with its last access
(`GrantRing.Publishes`): the word with the valid bit in direct mode, the register write in
memory-backed mode. Then the system refines `grantSys` (`storesSys_simulation`), and at every moment
the hardware finds complete commands only, each of a call that is accepted (`storesSys_exact`).
-/

namespace Qbman

variable {Op α : Type}

/-- A call that read the granting word `w`, and the accesses that it has still to make. -/
structure GrantCall (Op : Type) where
  op : Op
  r : Regions
  todo : List Access

/-- A ring and the call in progress. -/
structure StoresState (Op α : Type) where
  ring : GrantState α
  call : Option (GrantCall Op)

inductive StoresLabel (Op : Type) where
  | start (op : Op) (r : Regions)
  | access
  | finish
  | take (i : Nat)

namespace GrantState

variable (R : GrantRing Op α) (s : GrantState α)

/-- After one access. -/
def afterAccess (a : Access) : GrantState α :=
  { s with
    cena := s.cena.access a
    rung := fun i => s.rung i || R.told a == some i }

/-- After the hardware granted a slot, or none. -/
def afterGrant (w : U32) : GrantState α :=
  { s with busy := if R.grants w then Function.update s.busy (R.idx w) true else s.busy }

/-- After a call returned. -/
def afterReturn (op : Op) (r : Regions) : GrantState α :=
  { s with
    swp := (R.call s.swp r op).swp
    sent := if (R.call s.swp r op).ret = 0 then s.sent ++ [R.asked op (r.cinh R.reg)] else s.sent }

end GrantState

/-- Calls, access by access, and the hardware in any order. -/
def storesSys (R : GrantRing Op α) (ok : QbmanSwp → Op → Prop) (init : GrantState α → Prop) :
    Trans.Sys (StoresState Op α) (StoresLabel Op) where
  init s := init s.ring ∧ s.ring.Init R ∧ s.call = none
  step s l t := match l with
    | .start op r => s.call = none ∧ ok s.ring.swp op ∧ s.ring.MayGrant R (r.cinh R.reg) ∧
        t = ⟨s.ring.afterGrant R (r.cinh R.reg), some ⟨op, r, (R.call s.ring.swp r op).accs⟩⟩
    | .access => ∃ c a rest, s.call = some c ∧ c.todo = a :: rest ∧
        t = ⟨s.ring.afterAccess R a, some { c with todo := rest }⟩
    | .finish => ∃ c, s.call = some c ∧ c.todo = [] ∧ t = ⟨s.ring.afterReturn R c.op c.r, none⟩
    | .take i => i < R.size ∧ R.ready s.ring i = true ∧ t = { s with ring := s.ring.afterTake R i }

/-! ## Calls that publish last -/

/-- The accesses stay in the slot that was granted, and all but the last one show the hardware
nothing. -/
structure GrantRing.Publishes (R : GrantRing Op α) (ok : QbmanSwp → Op → Prop) : Prop where
  nonempty : ∀ s r op, ok s op → (R.call s r op).accs ≠ []
  frame : ∀ s r op, ok s op → ∀ a ∈ (R.call s r op).accs, ∀ (m : Region), ∀ j < R.size,
    (R.grants (r.cinh R.reg) = true → R.idx (r.cinh R.reg) < R.size ∧ j ≠ R.idx (r.cinh R.reg)) →
      R.read (m.access a) j = R.read m j
  last : ∀ s r op, ok s op →
    (R.grants (r.cinh R.reg) = true → R.idx (r.cinh R.reg) < R.size) →
      ∀ a ∈ (R.call s r op).accs.dropLast, R.told a = none ∧
        (R.doorbell = false → ∀ (m : Region), ∀ j < R.size, R.bit (m.access a) j = R.bit m j)

namespace StoresState

variable {R : GrantRing Op α} {ok : QbmanSwp → Op → Prop} {init : GrantState α → Prop}
variable {s t : StoresState Op α} {u : GrantState α}

/-- A call that has not published: the ring without it is `u`. -/
structure Before (R : GrantRing Op α) (ok : QbmanSwp → Op → Prop) (s : StoresState Op α)
    (u : GrantState α) (c : GrantCall Op) : Prop where
  call : s.call = some c
  ok : ok u.swp c.op
  may : u.MayGrant R (c.r.cinh R.reg)
  left : c.todo ≠ []
  accs : ∃ done, (R.call u.swp c.r c.op).accs = done ++ c.todo ∧ s.ring.cena = u.cena.run done
  ring : s.ring = { u.afterGrant R (c.r.cinh R.reg) with cena := s.ring.cena }

/-- A call that has published, and returns. -/
structure After (R : GrantRing Op α) (s : StoresState Op α) (u : GrantState α) (c : GrantCall Op) :
    Prop where
  call : s.call = some c
  left : c.todo = []
  ring : u = s.ring.afterReturn R c.op c.r

theorem reach_start (h : (storesSys R ok init).Reach s) (op : Op) (r : Regions)
    (hcall : s.call = none) (hok : ok s.ring.swp op) (hmay : s.ring.MayGrant R (r.cinh R.reg)) :
    (storesSys R ok init).Reach
      ⟨s.ring.afterGrant R (r.cinh R.reg), some ⟨op, r, (R.call s.ring.swp r op).accs⟩⟩ :=
  h.step (a := .start op r) ⟨hcall, hok, hmay, rfl⟩

theorem reach_accesses (n : Nat) {g : GrantState α} {op : Op} {r : Regions} {todo : List Access}
    (h : (storesSys R ok init).Reach ⟨g, some ⟨op, r, todo⟩⟩) :
    (storesSys R ok init).Reach
      ⟨(todo.take n).foldl (·.afterAccess R ·) g, some ⟨op, r, todo.drop n⟩⟩ := by
  refine Trans.Sys.Reach.foldl_take (fun g todo => (⟨g, some ⟨op, r, todo⟩⟩ : StoresState Op α))
    (fun g a as => ⟨StoresLabel.access, ?_⟩) n h
  exact ⟨_, _, _, rfl, rfl, rfl⟩

/-- What the ring is when calls are made at once. -/
inductive Rel (R : GrantRing Op α) (ok : QbmanSwp → Op → Prop) (s : StoresState Op α)
    (u : GrantState α) : Prop
  | idle (h : s.call = none) (hu : u = s.ring)
  | before (c : GrantCall Op) (h : s.Before R ok u c)
  | after (c : GrantCall Op) (h : s.After R u c)

namespace Before

variable {c : GrantCall Op}

/-! The access to the register apart, the ring is as it was when the call started. -/

theorem swp_eq (h : s.Before R ok u c) : s.ring.swp = u.swp := by
  rw [h.ring]
  rfl

theorem rung_eq (h : s.Before R ok u c) : s.ring.rung = u.rung := by
  rw [h.ring]
  rfl

theorem expect_eq (h : s.Before R ok u c) : s.ring.expect = u.expect := by
  rw [h.ring]
  rfl

theorem sent_eq (h : s.Before R ok u c) : s.ring.sent = u.sent := by
  rw [h.ring]
  rfl

theorem taken_eq (h : s.Before R ok u c) : s.ring.taken = u.taken := by
  rw [h.ring]
  rfl

/-- What the call has stored shows nothing to the hardware. -/
theorem quiet (hP : R.Publishes ok) (h : s.Before R ok u c) :
    (∀ j < R.size, (R.grants (c.r.cinh R.reg) = true → j ≠ R.idx (c.r.cinh R.reg)) →
        R.read s.ring.cena j = R.read u.cena j) ∧
      ∀ j < R.size, R.ready s.ring j = R.ready u j := by
  obtain ⟨done, haccs, hcena⟩ := h.accs
  have hlt := fun hw => (h.may hw).1
  have hmem : ∀ a ∈ done, a ∈ (R.call u.swp c.r c.op).accs.dropLast := fun a ha => by
    rw [haccs, List.dropLast_append_of_ne_nil h.left]
    exact List.mem_append_left _ ha
  refine ⟨fun j hj hne => ?_, fun j hj => ?_⟩
  · rw [hcena]
    exact Region.run_same (f := fun m => R.read m j) (fun a ha m => hP.frame _ _ _ h.ok a
      (List.mem_of_mem_dropLast (hmem a ha)) m j hj fun hw => ⟨hlt hw, hne hw⟩) _
  · simp only [GrantRing.ready, h.rung_eq, h.expect_eq]
    cases hd : R.doorbell with
    | true => rfl
    | false =>
      have hbit : R.bit s.ring.cena j = R.bit u.cena j := by
        rw [hcena]
        exact Region.run_same (f := fun m => R.bit m j)
          (fun a ha m => (hP.last _ _ _ h.ok hlt a (hmem a ha)).2 hd m j hj) _
      rw [hbit]

/-- The accesses so far told the hardware nothing. -/
theorem told_done (hP : R.Publishes ok) (h : s.Before R ok u c) {done : List Access}
    (haccs : (R.call u.swp c.r c.op).accs = done ++ c.todo) : done.filterMap R.told = [] := by
  refine List.filterMap_eq_nil_iff.mpr fun a ha => ?_
  refine (hP.last _ _ _ h.ok (fun hw => (h.may hw).1) a ?_).1
  rw [haccs, List.dropLast_append_of_ne_nil h.left]
  exact List.mem_append_left _ ha

/-- An access that is not the last one. -/
theorem access (hP : R.Publishes ok) (h : s.Before R ok u c) {a : Access} {rest : List Access}
    (htodo : c.todo = a :: rest) (hrest : rest ≠ []) :
    Before R ok ⟨s.ring.afterAccess R a,
      some { c with todo := rest }⟩ u { c with todo := rest } := by
  obtain ⟨done, haccs, hcena⟩ := h.accs
  have htold : R.told a = none := by
    refine (hP.last _ _ _ h.ok (fun hw => (h.may hw).1) a ?_).1
    rw [haccs, htodo, List.dropLast_append_of_ne_nil (List.cons_ne_nil a rest),
      List.dropLast_cons_of_ne_nil hrest]
    exact List.mem_append_right _ (List.mem_cons_self ..)
  refine ⟨rfl, h.ok, h.may, hrest, ⟨done ++ [a], ?_, ?_⟩, ?_⟩
  · rw [haccs, htodo, List.append_assoc]
    rfl
  · show s.ring.cena.access a = _
    rw [hcena, Region.run_append]
    rfl
  · have hsame : (fun i => s.ring.rung i || R.told a == some i) = u.rung := by
      funext i
      rw [htold, h.rung_eq]
      exact Bool.or_false _
    show { s.ring with
      cena := s.ring.cena.access a
      rung := fun i => s.ring.rung i || R.told a == some i } = _
    rw [hsame, h.ring]
    rfl

/-- The last access publishes: the call is done at once. -/
theorem publish (hP : R.Publishes ok) (h : s.Before R ok u c) {a : Access} (htodo : c.todo = [a]) :
    After R ⟨s.ring.afterAccess R a, some { c with todo := [] }⟩ (u.afterCall R c.op c.r)
      { c with todo := [] } := by
  obtain ⟨done, haccs, hcena⟩ := h.accs
  have htold := h.told_done hP haccs
  rw [htodo] at haccs
  refine ⟨rfl, rfl, ?_⟩
  have hcena' : u.cena.run (R.call u.swp c.r c.op).accs = s.ring.cena.access a := by
    rw [haccs, hcena, Region.run_append]
    rfl
  have hrung' : (fun i => u.rung i || ((R.call u.swp c.r c.op).accs.filterMap R.told).contains i) =
      fun i => s.ring.rung i || R.told a == some i := by
    funext i
    rw [haccs, List.filterMap_append, htold, h.rung_eq]
    cases htold : R.told a with
    | none => simp [htold]
    | some j => simp [htold, beq_eq_decide, eq_comm]
  show { u with
    swp := _
    cena := u.cena.run (R.call u.swp c.r c.op).accs
    busy := _
    rung := fun i => u.rung i || ((R.call u.swp c.r c.op).accs.filterMap R.told).contains i
    sent := _ } = _
  rw [hcena', hrung', GrantState.afterReturn, GrantState.afterAccess]
  simp only [h.swp_eq, h.sent_eq]
  rw [h.ring]
  rfl

/-- The hardware takes a slot that an earlier call published. -/
theorem take (hP : R.Publishes ok) (h : s.Before R ok u c) (hu : u.Exact R) {i : Nat}
    (hi : i < R.size) (hready : R.ready s.ring i = true) :
    R.ready u i = true ∧ Before R ok { s with ring := s.ring.afterTake R i }
      (u.afterTake R i) c := by
  obtain ⟨hread, hsame⟩ := h.quiet hP
  have hready' : R.ready u i = true := (hsame i hi).symm.trans hready
  have hne : R.grants (c.r.cinh R.reg) = true → i ≠ R.idx (c.r.cinh R.reg) := by
    rintro hw rfl
    have hbusy := (hu.ready_iff _ hi).mp hready'
    rw [(h.may hw).2.1] at hbusy
    cases hbusy
  have hbusy : s.ring.busy = (u.afterGrant R (c.r.cinh R.reg)).busy := by
    rw [h.ring]
  refine ⟨hready', h.call, h.ok, fun hw => ?_, h.left, h.accs, ?_⟩
  · obtain ⟨hlt, hfree, hexp⟩ := h.may hw
    have hne' : R.idx (c.r.cinh R.reg) ≠ i := (hne hw).symm
    refine ⟨hlt, ?_, fun hd => ?_⟩
    · show Function.update u.busy i false _ = false
      rw [Function.update_of_ne hne', hfree]
    · show _ = Function.update u.expect i _ _
      rw [Function.update_of_ne hne', hexp hd]
  · have hupdate : Function.update s.ring.busy i false =
        ((u.afterTake R i).afterGrant R (c.r.cinh R.reg)).busy := by
      rw [hbusy]
      simp only [GrantState.afterGrant, GrantState.afterTake]
      split
      · rename_i hw
        exact (Function.update_comm (hne hw) _ _ _).symm
      · rfl
    show { s.ring with
      busy := Function.update s.ring.busy i false
      expect := Function.update s.ring.expect i (!s.ring.expect i)
      rung := Function.update s.ring.rung i false
      taken := s.ring.taken ++ [R.read s.ring.cena i] } = _
    rw [hupdate, h.expect_eq, h.rung_eq, h.taken_eq, hread i hi hne, h.ring]
    rfl

end Before

/-- The ring as it is when calls are made at once is in order. -/
def Sim (R : GrantRing Op α) (ok : QbmanSwp → Op → Prop) (s : StoresState Op α) (u : GrantState α) :
    Prop :=
  s.Rel R ok u ∧ ∃ x, u.Rel R x

theorem Sim.step (hR : R.Spec ok) (hP : R.Publishes ok) (h : s.Sim R ok u) {l : StoresLabel Op}
    (hstep : (storesSys R ok init).step s l t) :
    ∃ ls u', (grantSys R ok init).Steps u ls u' ∧ t.Sim R ok u' := by
  obtain ⟨hrel, x, hx⟩ := h
  -- A step of the ring without the call in progress.
  have hone : ∀ l u', (grantSys R ok init).step u l u' → t.Rel R ok u' →
      ∃ ls u', (grantSys R ok init).Steps u ls u' ∧ t.Sim R ok u' := fun l u' hu ht => by
    obtain ⟨-, y, -, hy⟩ := (grantSys_simulation hR init).step u l u' x hx hu
    exact ⟨[l], u', .cons hu (.nil _), ht, y, hy⟩
  have hnone : t.Rel R ok u → ∃ ls u', (grantSys R ok init).Steps u ls u' ∧ t.Sim R ok u' :=
    fun ht => ⟨[], u, .nil _, ht, x, hx⟩
  cases l with
  | start op r =>
    obtain ⟨hcall, hok, hmay, rfl⟩ := hstep
    cases hrel with
    | idle h hu =>
      subst hu
      exact hnone (.before ⟨op, r, _⟩ ⟨rfl, hok, hmay, hP.nonempty _ _ _ hok, ⟨[], rfl, rfl⟩, rfl⟩)
    | before c h => cases hcall.symm.trans h.call
    | after c h => cases hcall.symm.trans h.call
  | access =>
    obtain ⟨c, a, rest, hcall, htodo, rfl⟩ := hstep
    cases hrel with
    | idle h hu => cases h.symm.trans hcall
    | before c' h =>
      obtain rfl := Option.some.inj (hcall.symm.trans h.call)
      cases rest with
      | nil => exact hone (.call c.op c.r) _ ⟨h.ok, h.may, rfl⟩ (.after _ (h.publish hP htodo))
      | cons b bs => exact hnone (.before _ (h.access hP htodo (List.cons_ne_nil b bs)))
    | after c' h =>
      obtain rfl := Option.some.inj (hcall.symm.trans h.call)
      cases h.left.symm.trans htodo
  | finish =>
    obtain ⟨c, hcall, htodo, rfl⟩ := hstep
    cases hrel with
    | idle h hu => cases h.symm.trans hcall
    | before c' h =>
      obtain rfl := Option.some.inj (hcall.symm.trans h.call)
      exact absurd htodo h.left
    | after c' h =>
      obtain rfl := Option.some.inj (hcall.symm.trans h.call)
      exact hnone (.idle rfl h.ring)
  | take i =>
    obtain ⟨hi, hready, rfl⟩ := hstep
    cases hrel with
    | idle h hu =>
      subst hu
      exact hone (.take i) _ ⟨hi, hready, rfl⟩ (.idle h rfl)
    | before c h =>
      obtain ⟨hready', hbefore⟩ := h.take hP hx.exact hi hready
      exact hone (.take i) _ ⟨hi, hready', rfl⟩ (.before c hbefore)
    | after c h =>
      have hu := h.ring
      have hready' : R.ready u i = true := by
        rw [hu]
        exact hready
      refine hone (.take i) _ ⟨hi, hready', rfl⟩ (.after c ⟨h.call, h.left, ?_⟩)
      rw [hu]
      rfl

end StoresState

/-- A ring whose calls publish last is one whose calls are made at once. -/
theorem storesSys_simulation {R : GrantRing Op α} {ok : QbmanSwp → Op → Prop} (hR : R.Spec ok)
    (hP : R.Publishes ok) (init : GrantState α → Prop) :
    (storesSys R ok init).Simulation (grantSys R ok init) (StoresState.Sim R ok) where
  init s h := ⟨s.ring, ⟨h.1, h.2.1⟩, .idle h.2.2 rfl, _, .of_init h.2.1⟩
  step _ _ _ _ h hstep := h.step hR hP hstep

/-- The command of a call that made its last access and has not returned, if it got a slot. -/
def StoresState.published (R : GrantRing Op α) (s : StoresState Op α) : List α :=
  match s.call with
  | none => []
  | some c =>
    if c.todo = [] ∧ (R.call s.ring.swp c.r c.op).ret = 0 then [R.asked c.op (c.r.cinh R.reg)]
    else []

/-- Between any two accesses: the commands of the calls that returned 0 and of the one that is about
to are those that the hardware took and those that it finds in the slots, each once. -/
def StoresState.Exact (R : GrantRing Op α) (s : StoresState Op α) : Prop :=
  (s.ring.sent ++ s.published R).Perm
    (s.ring.taken ++ ((List.range R.size).filter (R.ready s.ring)).map (R.read s.ring.cena))

namespace StoresState

variable {R : GrantRing Op α} {ok : QbmanSwp → Op → Prop} {s : StoresState Op α} {u : GrantState α}

/-- The commands that the hardware finds are those of the ring without the call in progress. -/
theorem exact_of_same (hu : u.Exact R) (hsent : s.ring.sent ++ s.published R = u.sent)
    (htaken : s.ring.taken = u.taken) (hready : ∀ j < R.size, R.ready s.ring j = R.ready u j)
    (hread : ∀ j < R.size, R.ready u j = true → R.read s.ring.cena j = R.read u.cena j) :
    s.Exact R := by
  have hfilter : (List.range R.size).filter (R.ready s.ring) =
      (List.range R.size).filter u.busy := by
    refine List.filter_congr fun j hj => ?_
    rw [hready j (List.mem_range.mp hj), Bool.eq_iff_iff]
    exact hu.ready_iff j (List.mem_range.mp hj)
  rw [StoresState.Exact, hsent, htaken, hfilter]
  have hmap : ((List.range R.size).filter u.busy).map (R.read s.ring.cena) =
      ((List.range R.size).filter u.busy).map (R.read u.cena) := by
    refine List.map_congr_left fun j hj => ?_
    obtain ⟨hj, hbusy⟩ := List.mem_filter.mp hj
    have hj := List.mem_range.mp hj
    exact hread j hj ((hu.ready_iff j hj).mpr hbusy)
  rw [hmap]
  exact hu.perm

theorem Sim.exact (hP : R.Publishes ok) (h : s.Sim R ok u) : s.Exact R := by
  obtain ⟨hrel, x, hx⟩ := h
  have hu := hx.exact
  cases hrel with
  | idle h hs =>
    subst hs
    refine exact_of_same hu ?_ rfl (fun _ _ => rfl) fun _ _ _ => rfl
    simp [published, h]
  | before c h =>
    obtain ⟨hread, hready⟩ := h.quiet hP
    refine exact_of_same hu ?_ h.taken_eq hready fun j hj hr => hread j hj ?_
    · simp [published, h.call, h.left, h.sent_eq]
    · rintro hw rfl
      have hbusy := (hu.ready_iff _ hj).mp hr
      rw [(h.may hw).2.1] at hbusy
      cases hbusy
  | after c h =>
    have hring := h.ring
    have hsent : s.ring.sent ++ s.published R = u.sent := by
      rw [hring, published, h.call]
      simp only [h.left, true_and, GrantState.afterReturn]
      split
      · rfl
      · exact List.append_nil _
    refine exact_of_same hu hsent ?_ (fun j _ => ?_) fun j _ _ => ?_
    · rw [hring]
      rfl
    · rw [hring]
      rfl
    · rw [hring]
      rfl

end StoresState

/-! ## The two rings -/

/-- Entries of 64 bytes from `base` on, whose valid bit is in their first word. -/
structure GrantRing.Entries (R : GrantRing Op α) (base : Nat) : Prop where
  read : ∀ (m m' : Region) (j : Nat),
    (∀ off, base + 64 * j ≤ off → off < base + 64 * j + 64 → m off = m' off) →
    R.read m j = R.read m' j
  bit : ∀ (m m' : Region) (j : Nat), m (base + 64 * j) = m' (base + 64 * j) → R.bit m j = R.bit m' j
  told_word : ∀ off w, R.told (.cenaWord off w) = none
  told_read : ∀ off w, R.told (.cinhRead off w) = none

/-- What a call does: it reads the register, stores `body` to the words of the entry after the
first, then the first, and tells the hardware last if it has to be told. -/
structure GrantRing.StoresEntry (R : GrantRing Op α) (base i : Nat) (v w : U32)
    (body notify as : List Access) : Prop where
  accs : as = .cinhRead R.reg v :: (body ++ .cenaWord (base + 64 * i) w :: notify)
  within : ∀ a ∈ body, ∃ off w,
    a = .cenaWord off w ∧ base + 64 * i + 4 ≤ off ∧ off < base + 64 * i + 64
  quiet : ∀ a ∈ notify, ∀ m : Region, m.access a = m
  last : notify.length = if R.doorbell then 1 else 0

namespace GrantRing

variable {R : GrantRing Op α} {base i : Nat} {v w : U32} {body notify as : List Access}

/-- A store within an entry is not seen in the others. -/
theorem Entries.read_cenaWord (hE : R.Entries base) (m : Region) {off : Nat} (w : U32) {j : Nat}
    (hj : j ≠ i) (hlow : base + 64 * i ≤ off) (hhigh : off < base + 64 * i + 64) :
    R.read (m.access (.cenaWord off w)) j = R.read m j := by
  refine hE.read _ _ j fun k hk hk' => ?_
  rw [Region.access_cenaWord]
  exact Function.update_of_ne (by omega) _ _

/-- A store that is not to a first word does not change a valid bit. -/
theorem Entries.bit_cenaWord (hE : R.Entries base) (m : Region) {off : Nat} (w : U32) (j : Nat)
    (hlow : base + 64 * i + 4 ≤ off) (hhigh : off < base + 64 * i + 64) :
    R.bit (m.access (.cenaWord off w)) j = R.bit m j := by
  refine hE.bit _ _ j ?_
  rw [Region.access_cenaWord]
  exact Function.update_of_ne (by omega) _ _

theorem StoresEntry.ne_nil (h : R.StoresEntry base i v w body notify as) : as ≠ [] := by
  rw [h.accs]
  exact List.cons_ne_nil _ _

theorem StoresEntry.frame (hE : R.Entries base) (h : R.StoresEntry base i v w body notify as)
    {a : Access}
    (ha : a ∈ as) (m : Region) {j : Nat} (hj : j ≠ i) : R.read (m.access a) j = R.read m j := by
  rw [h.accs, List.mem_cons, List.mem_append, List.mem_cons] at ha
  rcases ha with rfl | hbody | rfl | hnotify
  · rfl
  · obtain ⟨off, w, rfl, hlow, hhigh⟩ := h.within a hbody
    exact hE.read_cenaWord m w hj (by omega) hhigh
  · exact hE.read_cenaWord m _ hj (Nat.le_refl _) (by omega)
  · rw [h.quiet a hnotify]

theorem StoresEntry.last_access (hE : R.Entries base) (h : R.StoresEntry base i v w body notify as)
    {a : Access} (ha : a ∈ as.dropLast) :
    R.told a = none ∧ (R.doorbell = false → ∀ (m : Region) (j : Nat),
      R.bit (m.access a) j = R.bit m j) := by
  have hbefore : a = .cinhRead R.reg v ∨ a ∈ body ∨
      (R.doorbell = true ∧ a = .cenaWord (base + 64 * i) w) := by
    have hlast := h.last
    rw [h.accs] at ha
    cases hd : R.doorbell with
    | false =>
      rw [hd] at hlast
      rw [List.length_eq_zero_iff.mp hlast, List.dropLast_cons_of_ne_nil (by simp),
        List.dropLast_concat, List.mem_cons] at ha
      exact ha.imp id Or.inl
    | true =>
      rw [hd] at hlast
      obtain ⟨b, hb⟩ := List.length_eq_one_iff.mp hlast
      rw [hb, List.dropLast_cons_of_ne_nil (by simp),
        List.dropLast_append_of_ne_nil (List.cons_ne_nil _ _), List.mem_cons, List.mem_append] at ha
      refine ha.imp id (Or.imp id fun h => ⟨rfl, ?_⟩)
      simpa using h
  rcases hbefore with rfl | hbody | ⟨hd, rfl⟩
  · exact ⟨hE.told_read _ _, fun _ _ _ => rfl⟩
  · obtain ⟨off, w, rfl, hlow, hhigh⟩ := h.within a hbody
    exact ⟨hE.told_word off w, fun _ m j => hE.bit_cenaWord m w j hlow hhigh⟩
  · exact ⟨hE.told_word _ _, fun h => by rw [hd] at h; cases h⟩

/-- Calls that store an entry, or read the register alone, publish last. -/
theorem publishes_of {ok : QbmanSwp → Op → Prop} (hE : R.Entries base)
    (hcall : ∀ s r op, ok s op →
      (R.grants (r.cinh R.reg) = false ∧ ∃ v, (R.call s r op).accs = [.cinhRead R.reg v]) ∨
        (R.grants (r.cinh R.reg) = true ∧ ∃ v w body notify,
          R.StoresEntry base (R.idx (r.cinh R.reg)) v w body notify (R.call s r op).accs)) :
    R.Publishes ok where
  nonempty s r op hok := by
    rcases hcall s r op hok with ⟨-, v, haccs⟩ | ⟨-, v, w, body, notify, h⟩
    · rw [haccs]
      exact List.cons_ne_nil _ _
    · exact h.ne_nil
  frame s r op hok a ha m j _ hj := by
    rcases hcall s r op hok with ⟨-, v, haccs⟩ | ⟨hw, v, w, body, notify, h⟩
    · rw [haccs, List.mem_singleton] at ha
      subst ha
      rfl
    · exact h.frame hE ha m (hj hw).2
  last s r op hok _ a ha := by
    rcases hcall s r op hok with ⟨-, v, haccs⟩ | ⟨hw, v, w, body, notify, h⟩
    · rw [haccs] at ha
      cases ha
    · obtain ⟨htold, hbit⟩ := h.last_access hE ha
      exact ⟨htold, fun hd m j _ => hbit hd m j⟩

end GrantRing

theorem rcrRing_entries (impl : Impl) : (rcrRing impl).Entries impl.rcrBase where
  read _ _ j h := decodeRelease_congr fun i hi => h _ (by omega) (by omega)
  bit _ _ j h := congrArg (fun w : U32 => w.getLsbD 7) h
  told_word _ _ := rfl
  told_read _ _ := rfl

theorem rcrRing_publishes (impl : Impl) : (rcrRing impl).Publishes fun _ op => op.Valid := by
  refine GrantRing.publishes_of (rcrRing_entries impl) fun s r op hok => ?_
  have hptr : impl.ptrs.releasePtr = impl := by cases impl <;> rfl
  have hcall : (rcrRing impl).call s r op =
      releaseCall impl.rcr impl.rcrNotify s r (ReleaseDescSet.build op.sets) op.buffers op.n := by
    show qbmanSwpRelease _ _ _ _ _ _ = _
    rw [qbmanSwpRelease_impl, hptr]
  rw [hcall]
  cases hw : (rcrRing impl).grants (r.cinh (rcrRing impl).reg) with
  | false =>
    have hfail : rarSuccess (r.cinh qbmanCinhSwpRar) = false := hw
    refine .inl ⟨rfl, r.cinh qbmanCinhSwpRar, ?_⟩
    rw [releaseCall_busy _ _ _ hfail]
    rfl
  | true =>
    have hoff := impl.rcr_eq (rarIdx_lt (r.cinh qbmanCinhSwpRar))
    have hidx : (rcrRing impl).idx (r.cinh (rcrRing impl).reg) =
        (rarIdx (r.cinh qbmanCinhSwpRar)).toNat :=
      rfl
    have hdone : releaseCall impl.rcr impl.rcrNotify s r
        (ReleaseDescSet.build op.sets) op.buffers op.n = _ :=
      releaseCall_ok _ _ _ hw
    have haccs := congrArg Outcome.accs hdone
    refine .inr ⟨rfl, _, _, _, _, haccs.trans (by rw [hoff]; rfl), fun a ha => ?_,
      fun a ha m => ?_, ?_⟩
    · obtain ⟨i, w, hget, rfl⟩ := mem_storeWords.mp ha
      have hi := (List.getElem?_eq_some_iff.mp hget).1
      rw [length_u64ToLe32Copy] at hi
      have hn : op.n.toNat ≤ 7 := hok
      exact ⟨_, w, rfl, by omega, by omega⟩
    · cases impl with
      | direct => cases ha
      | memBack =>
        obtain rfl := List.mem_singleton.mp ha
        rfl
    · cases impl <;> rfl

theorem eqcrArray_entries (impl : Impl) : (eqcrArray impl).Entries 0 where
  read m m' j h := by
    funext k
    exact h _ (by omega) (by omega)
  bit m m' j h := by
    have hzero : m (64 * j) = m' (64 * j) := by simpa using h
    exact congrArg (fun w : U32 => w.getLsbD 7) hzero
  told_word _ _ := rfl
  told_read _ _ := rfl

theorem eqcrArray_publishes (impl : Impl) :
    (eqcrArray impl).Publishes fun s _ => s.sys.eqcrMode = .vbArray := by
  refine GrantRing.publishes_of (eqcrArray_entries impl) fun s r op hok => ?_
  have hcall : (eqcrArray impl).call s r op =
      enqueueArrayMode impl.arrayNotify s r (EqDescSet.build op.sets) op.fd :=
    qbmanSwpEnqueue_array impl hok r _ _
  rw [hcall]
  cases hw : (eqcrArray impl).grants (r.cinh (eqcrArray impl).reg) with
  | false =>
    have hfail : eqarSuccess (r.cinh qbmanCinhSwpEqar) = 0 := by
      by_contra hne
      cases hw.symm.trans (decide_eq_true hne)
    refine .inl ⟨rfl, r.cinh qbmanCinhSwpEqar, ?_⟩
    simp only [enqueueArrayMode, if_pos hfail]
    rfl
  | true =>
    have hne : eqarSuccess (r.cinh qbmanCinhSwpEqar) ≠ 0 := of_decide_eq_true hw
    have hidx : (eqcrArray impl).idx (r.cinh (eqcrArray impl).reg) =
        (eqarIdx (r.cinh qbmanCinhSwpEqar)).toNat := rfl
    have hdone : enqueueArrayMode impl.arrayNotify s r (EqDescSet.build op.sets) op.fd = _ :=
      enqueueArrayMode_ok _ _ hne
    have haccs := congrArg Outcome.accs hdone
    refine .inr ⟨rfl, _, _, _, _, haccs.trans (by rw [hidx, Nat.zero_add]; rfl), fun a ha => ?_,
      fun a ha m => ?_, ?_⟩
    · simp only [enqueueBody, memcpyWords, List.mem_append, List.mem_ofFn] at ha
      rcases ha with ⟨k, rfl⟩ | ⟨k, rfl⟩
      · exact ⟨_, _, rfl, by omega, by omega⟩
      · exact ⟨_, _, rfl, by omega, by omega⟩
    · cases impl with
      | direct => cases ha
      | memBack =>
        simp only [Impl.arrayNotify, qbmanWriteEqcrAmRtRegister] at ha
        split at ha
        · obtain rfl := List.mem_singleton.mp ha
          rfl
        · obtain rfl := List.mem_singleton.mp ha
          rfl
    · cases impl with
      | direct => rfl
      | memBack =>
        simp only [Impl.arrayNotify, qbmanWriteEqcrAmRtRegister]
        split
        · rfl
        · rfl

/-! ## Every run -/

/-- The release ring of an initialised portal, access by access. -/
def rcrStores (impl : Impl) :
    Trans.Sys (StoresState ReleaseOp ReleaseCmd) (StoresLabel ReleaseOp) :=
  storesSys (rcrRing impl) (fun _ op => op.Valid) fun s =>
    ∃ g d env a, (qbmanSwpInit g d env).ret = some (a, s.swp) ∧ d.impl = impl

/-- The enqueue ring of a portal initialised in array mode, access by access. -/
def arrayStores (impl : Impl) : Trans.Sys (StoresState ArrayOp Line) (StoresLabel ArrayOp) :=
  storesSys (eqcrArray impl) (fun s _ => s.sys.eqcrMode = .vbArray) fun s =>
    ∃ g d env a, (qbmanSwpInit g d env).ret = some (a, s.swp) ∧ d.impl = impl ∧
      d.eqcrMode = .vbArray

/-- However far a release is, the hardware finds the releases that were made and no half of one. -/
theorem rcrStores_exact {impl : Impl} {s : StoresState ReleaseOp ReleaseCmd}
    (h : (rcrStores impl).Reach s) : s.Exact (rcrRing impl) := by
  obtain ⟨u, -, hsim⟩ :=
    (storesSys_simulation (rcrRing_spec impl) (rcrRing_publishes impl) _).reach h
  exact hsim.exact (rcrRing_publishes impl)

/-- Entry 3 is taken while a release to entry 5 has stored its buffer and not its first word. -/
theorem rcrStores_exact_half :
    ∃ s, (rcrStores .direct).Reach s ∧ s.ring.taken.map ReleaseCmd.buffers = [[8]] ∧
      s.ring.sent.length = 1 ∧ s.ring.cena (0x400 + 64 * 5 + 8) = 9 ∧
      s.Exact (rcrRing .direct) := by
  let s₀ := GrantState.cleared ReleaseCmd (swpRev4100 0 0x1000)
  have hinit : (rcrStores .direct).init ⟨s₀, none⟩ :=
    ⟨⟨{}, .rev4100 .vbRing 0, .ok 0x1000 0 0, 0x1000, rfl, rfl⟩,
      ⟨fun _ => rfl, by decide, rfl, rfl⟩, rfl⟩
  have hvalid : (⟨[.bpid 5], fun _ => 9, 1⟩ : ReleaseOp).Valid := Nat.le_of_lt_succ (by decide)
  have hfirst := StoresState.reach_start (.of_init hinit) ⟨[.bpid 5], fun _ => 8, 1⟩
    ⟨fun _ => 0, fun _ => 0x183⟩ rfl hvalid fun _ => ⟨by decide, rfl, fun _ => by decide⟩
  have hstored := StoresState.reach_accesses 4 hfirst
  have hdone := hstored.step (a := StoresLabel.finish) (t := ⟨_, none⟩)
    ⟨_, rfl, rfl, rfl⟩
  have hsecond := StoresState.reach_start hdone ⟨[.bpid 5], fun _ => 9, 1⟩
    ⟨fun _ => 0, fun _ => 0x185⟩ rfl hvalid fun _ => ⟨by decide, rfl, fun _ => by decide⟩
  have hhalf := StoresState.reach_accesses 2 hsecond
  have htake := hhalf.step (a := StoresLabel.take 3) (t := ⟨_, some _⟩)
    ⟨by decide, by decide, rfl⟩
  exact ⟨_, htake, by decide, by decide, by decide, rcrStores_exact htake⟩

/-- However far an enqueue is, the hardware finds the commands that were made and no half of one. -/
theorem arrayStores_exact {impl : Impl} {s : StoresState ArrayOp Line}
    (h : (arrayStores impl).Reach s) :
    s.Exact (eqcrArray impl) := by
  obtain ⟨u, -, hsim⟩ :=
    (storesSys_simulation (eqcrArray_spec impl) (eqcrArray_publishes impl) _).reach h
  exact hsim.exact (eqcrArray_publishes impl)

/-- Slot 20 of a memory-backed portal is taken while slot 3 has its whole command, which the
hardware was not told of. -/
theorem arrayStores_exact_half :
    ∃ s, (arrayStores .memBack).Reach s ∧ s.ring.taken.map (fun l => l 8) = [6] ∧
      s.ring.sent.length = 1 ∧ s.ring.cena.slots 3 8 = 7 ∧ s.Exact (eqcrArray .memBack) := by
  let p := ((qbmanSwpInit {} (.rev5000 .vbArray 0) (.ok 0x1000 0 0)).ret.get rfl).2
  let s₀ := GrantState.cleared Line p
  have hinit : (arrayStores .memBack).init ⟨s₀, none⟩ :=
    ⟨⟨{}, .rev5000 .vbArray 0, .ok 0x1000 0 0, 0x1000, rfl, rfl, rfl⟩,
      ⟨fun _ => rfl, by decide, rfl, rfl⟩, rfl⟩
  have hfirst := StoresState.reach_start (.of_init hinit) ⟨[.fq 1], fun _ => 6⟩
    ⟨fun _ => 0, fun _ => 0x114⟩ rfl rfl fun _ => ⟨by decide, rfl, fun h => by cases h⟩
  have hstored := StoresState.reach_accesses 18 hfirst
  have hdone := hstored.step (a := StoresLabel.finish) (t := ⟨_, none⟩) ⟨_, rfl, rfl, rfl⟩
  have hsecond := StoresState.reach_start hdone ⟨[.fq 2], fun _ => 7⟩ ⟨fun _ => 0, fun _ => 0x183⟩
    rfl (by decide) fun _ => ⟨by decide, by decide, fun h => by cases h⟩
  have hhalf := StoresState.reach_accesses 17 hsecond
  have htake := hhalf.step (a := StoresLabel.take 20) (t := ⟨_, some _⟩) ⟨by decide, by decide, rfl⟩
  exact ⟨_, htake, by decide, by decide, by decide, arrayStores_exact htake⟩

end Qbman
