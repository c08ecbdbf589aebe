import Mathlib.Order.Lattice.Nat

/-!
# Terminating the process group of `inspect` (`src/inspect.cpp`)

`terminate_process_group` asks `waitpid` about the group, which tells it about the
spawned child alone: a descendant is not the guard's child. It sends `SIGTERM` only if
the child was running at the first look, and `SIGKILL` only if the child was not found
exited until the deadline. So a descendant may be left behind whenever the child goes
first (`terminate_leaves_none_iff`).
-/

namespace NativeGuard.Process

/-! ## §1  The group -/

/-- A group as it was when the function is called, and who has exited at each of its
looks. On some calls the child has been waited for before. -/
structure GroupTimeline (Process : Type) where
  pgid : Int
  child : Process
  descendants : List Process
  exited : Nat → Process → Bool
  reapedBefore : Bool
  spawned : 0 < pgid
  stays : ∀ look p, exited look p = true → exited (look + 1) p = true
  wasExited : reapedBefore = true → exited 0 child = true

/-- Whether the child has been waited for, and who has been sent what. -/
structure GroupState (Process : Type) where
  reaped : Bool
  terminated : List Process := []
  killed : List Process := []

/-- What `waitpid` on the group comes back with: the child, nothing yet, or `ECHILD`. -/
inductive Waited where
  | child
  | running
  | noChild

namespace GroupTimeline

variable {Process : Type} (group : GroupTimeline Process)

def members : List Process := group.child :: group.descendants

def wait (look : Nat) (st : GroupState Process) : Waited × GroupState Process :=
  if st.reaped then (.noChild, st)
  else if group.exited look group.child then (.child, { st with reaped := true })
  else (.running, st)

/-- A signal to the negative group id reaches every member. -/
def sendTerm (st : GroupState Process) : GroupState Process :=
  { st with terminated := group.members }

def sendKill (st : GroupState Process) : GroupState Process :=
  { st with killed := group.members }

/-! ## §2  `terminate_process_group` -/

/-- The last loop, which blocks until the child has exited; nothing while it has not
come to an end after so many looks. -/
def drain : Nat → Nat → GroupState Process → Option (Nat × GroupState Process)
  | 0, _, _ => none
  | rounds + 1, look, st =>
      match group.wait look st with
      | (.noChild, st) => some (look, st)
      | (_, st) => drain rounds (look + 1) st

/-- The loop with so many looks left before the deadline, one every 10 ms unless the
one before has found the child. -/
def grace (rounds : Nat) : Nat → Nat → GroupState Process →
    Option (Nat × GroupState Process)
  | 0, look, st => group.drain rounds look (group.sendKill st)
  | polls + 1, look, st =>
      match group.wait look st with
      | (.noChild, st) => some (look, st)
      | (_, st) => grace rounds polls (look + 1) st

/-- The look at which the function returns, and the state it leaves. -/
def terminateProcessGroup (polls rounds : Nat) : Option (Nat × GroupState Process) :=
  if group.pgid ≤ 0 then some (0, { reaped := group.reapedBefore })
  else
    match group.wait 0 { reaped := group.reapedBefore } with
    | (.running, st) => group.grace rounds polls 1 (group.sendTerm st)
    | (_, st) => some (0, st)

/-! ## §3  What the loops do -/

variable {group} {look polls rounds : Nat} {st : GroupState Process}

theorem wait_running (hreaped : st.reaped = false)
    (h : group.exited look group.child = false) : group.wait look st = (.running, st) := by
  simp [wait, hreaped, h]

theorem wait_child (hreaped : st.reaped = false)
    (h : group.exited look group.child = true) :
    group.wait look st = (.child, { st with reaped := true }) := by
  simp [wait, hreaped, h]

theorem wait_noChild (hreaped : st.reaped = true) : group.wait look st = (.noChild, st) := by
  simp [wait, hreaped]

/-- No loop takes a signal back. -/
theorem drain_killed {result : Nat × GroupState Process}
    (h : group.drain rounds look st = some result) : result.2.killed = st.killed := by
  induction rounds generalizing look st with
  | zero => cases h
  | succ rounds ih =>
      rw [drain] at h
      cases hreaped : st.reaped with
      | true =>
          rw [wait_noChild hreaped] at h
          cases h
          rfl
      | false =>
          cases hexited : group.exited look group.child with
          | true =>
              rw [wait_child hreaped hexited] at h
              have hkilled := ih h
              exact hkilled
          | false =>
              rw [wait_running hreaped hexited] at h
              exact ih h

/-- The loop ends at the look behind the one that finds the child, before the deadline. -/
theorem grace_early {j : Nat} (hreaped : st.reaped = false) (hle : look ≤ j)
    (hearly : j + 1 < look + polls) (hexited : group.exited j group.child = true)
    (hbefore : ∀ i, look ≤ i → i < j → group.exited i group.child = false) :
    group.grace rounds polls look st = some (j + 1, { st with reaped := true }) := by
  induction polls generalizing look with
  | zero => omega
  | succ polls ih =>
      rw [grace]
      rcases Nat.eq_or_lt_of_le hle with rfl | hlt
      · obtain ⟨polls, rfl⟩ : ∃ n, polls = n + 1 := ⟨polls - 1, by omega⟩
        rw [wait_child hreaped hexited]
        dsimp only
        rw [grace, wait_noChild rfl]
      · rw [wait_running hreaped (hbefore look (le_refl look) hlt)]
        exact ih hlt (by omega) fun i hi hij => hbefore i (by omega) hij

/-- A child that all looks but the last find running is there at the deadline. -/
theorem grace_late {result : Nat × GroupState Process} (hreaped : st.reaped = false)
    (hrunning : ∀ i, look ≤ i → i + 1 < look + polls → group.exited i group.child = false)
    (h : group.grace rounds polls look st = some result) :
    result.2.killed = group.members := by
  induction polls generalizing look with
  | zero => exact drain_killed h
  | succ polls ih =>
      rw [grace] at h
      cases polls with
      | zero =>
          -- the last look: whatever it finds, the deadline comes next
          cases hexited : group.exited look group.child with
          | true =>
              rw [wait_child hreaped hexited] at h
              exact drain_killed h
          | false =>
              rw [wait_running hreaped hexited] at h
              exact drain_killed h
      | succ polls =>
          rw [wait_running hreaped (hrunning look (le_refl look) (by omega))] at h
          exact ih (fun i hi hlt => hrunning i (by omega) (by omega)) h

/-- The function returns once the child has exited. -/
theorem drain_returns (h : ∀ i, look + rounds ≤ i → group.exited i group.child = true) :
    ∃ result, group.drain (rounds + 2) look st = some result := by
  have hdone : ∀ {look} {st : GroupState Process} {rounds}, st.reaped = true →
      ∃ result, group.drain (rounds + 1) look st = some result := by
    intro look st rounds hreaped
    rw [drain, wait_noChild hreaped]
    exact ⟨_, rfl⟩
  induction rounds generalizing look st with
  | zero =>
      cases hreaped : st.reaped with
      | true => exact hdone hreaped
      | false =>
          rw [drain, wait_child hreaped (h look (le_refl look))]
          exact hdone rfl
  | succ rounds ih =>
      rw [drain]
      cases hreaped : st.reaped with
      | true =>
          rw [wait_noChild hreaped]
          exact ⟨_, rfl⟩
      | false =>
          cases hexited : group.exited look group.child with
          | true =>
              rw [wait_child hreaped hexited]
              exact hdone rfl
          | false =>
              rw [wait_running hreaped hexited]
              exact ih fun i hi => h i (by omega)

theorem grace_returns
    (h : ∀ i, look + polls + rounds ≤ i → group.exited i group.child = true) :
    ∃ result, group.grace (rounds + 2) polls look st = some result := by
  induction polls generalizing look st with
  | zero => exact drain_returns h
  | succ polls ih =>
      have hlater : ∀ i, look + 1 + polls + rounds ≤ i →
          group.exited i group.child = true := fun i hi => h i (by omega)
      rw [grace]
      split
      · exact ⟨_, rfl⟩
      · exact ih hlater

/-! ## §4  Who is left behind -/

/-- The child is found exited at this look and at none before. -/
def FirstFound (group : GroupTimeline Process) (look : Nat) : Prop :=
  group.exited look group.child = true ∧ ∀ i < look, group.exited i group.child = false

/-- Where a child found at `look`, before the last look, makes the function return. -/
def returnLook (look : Nat) : Nat := if look = 0 then 0 else look + 1

/-- The others do not outlive a child that is found before the last look. -/
def NoneOutlives (group : GroupTimeline Process) (polls : Nat) : Prop :=
  ∀ look ≤ polls - 1, group.FirstFound look →
    ∀ p ∈ group.members, group.exited (returnLook look) p = true

/-- Everyone who was in the group has exited or has been sent `SIGKILL`. -/
def NoSurvivor (group : GroupTimeline Process) (result : Nat × GroupState Process) : Prop :=
  ∀ p ∈ group.members, group.exited result.1 p = true ∨ p ∈ result.2.killed

theorem exists_firstFound (h : group.exited look group.child = true) :
    ∃ j ≤ look, group.FirstFound j := by
  have hex : ∃ i, group.exited i group.child = true := ⟨look, h⟩
  refine ⟨Nat.find hex, Nat.find_min' hex h, Nat.find_spec hex, fun i hi => ?_⟩
  simpa using Nat.find_min hex hi

/-- With a child found before the last look no `SIGKILL` is sent. -/
theorem terminate_early (h : group.FirstFound look) (hearly : look ≤ polls - 1) :
    ∃ st, group.terminateProcessGroup polls rounds = some (returnLook look, st) ∧
      st.killed = [] := by
  have hpgid : ¬ group.pgid ≤ 0 := Int.not_le.mpr group.spawned
  unfold terminateProcessGroup returnLook
  rw [if_neg hpgid]
  cases hreaped : group.reapedBefore with
  | true =>
      obtain rfl : look = 0 := by
        by_contra hne
        have hrunning := h.2 0 (Nat.pos_of_ne_zero hne)
        rw [group.wasExited hreaped] at hrunning
        cases hrunning
      rw [wait_noChild rfl]
      exact ⟨_, rfl, rfl⟩
  | false =>
      by_cases hzero : look = 0
      · rw [hzero] at h
        rw [wait_child rfl h.1, if_pos hzero]
        exact ⟨_, rfl, rfl⟩
      · have hpos := Nat.pos_of_ne_zero hzero
        rw [wait_running rfl (h.2 0 hpos), if_neg hzero]
        refine ⟨_, grace_early rfl hpos (by omega) h.1 fun i _ hi => h.2 i hi, rfl⟩

/-- With a child that is found at the last look or not at all it is. -/
theorem terminate_late {result : Nat × GroupState Process}
    (hlate : ∀ look ≤ polls - 1, ¬ group.FirstFound look)
    (h : group.terminateProcessGroup polls rounds = some result) :
    result.2.killed = group.members := by
  have hpgid : ¬ group.pgid ≤ 0 := Int.not_le.mpr group.spawned
  have hrunning : ∀ i ≤ polls - 1, group.exited i group.child = false := by
    intro i hi
    by_contra hexited
    obtain ⟨j, hj, hfound⟩ := exists_firstFound (by simpa using hexited)
    exact hlate j (hj.trans hi) hfound
  have hreaped : group.reapedBefore = false := by
    by_contra htrue
    have hzero := hrunning 0 (Nat.zero_le _)
    rw [group.wasExited (by simpa using htrue)] at hzero
    cases hzero
  unfold terminateProcessGroup at h
  rw [if_neg hpgid, hreaped, wait_running rfl (hrunning 0 (Nat.zero_le _))] at h
  exact grace_late rfl (fun i _ hi => hrunning i (by omega)) h

/-- The function leaves no survivor exactly if nobody outlives a child that is found
before the last look; and it returns if the child exits at all. -/
theorem terminate_leaves_none_iff (group : GroupTimeline Process) (polls : Nat) :
    ((∀ rounds result, group.terminateProcessGroup polls rounds = some result →
        group.NoSurvivor result) ↔ group.NoneOutlives polls) ∧
      ∀ look, group.exited look group.child = true →
        ∃ rounds result, group.terminateProcessGroup polls rounds = some result := by
  constructor
  · constructor
    · intro h look hlook hfound p hp
      obtain ⟨st, hreturn, hkilled⟩ := @terminate_early _ _ _ _ 0 hfound hlook
      rcases h 0 _ hreturn p hp with hexited | hsent
      · exact hexited
      · rw [hkilled] at hsent
        exact absurd hsent List.not_mem_nil
    · intro h rounds result hreturn p hp
      by_cases hearly : ∃ look ≤ polls - 1, group.FirstFound look
      · obtain ⟨look, hlook, hfound⟩ := hearly
        obtain ⟨st, hreturn', -⟩ := @terminate_early _ _ _ _ rounds hfound hlook
        rw [hreturn] at hreturn'
        cases hreturn'
        exact Or.inl (h look hlook hfound p hp)
      · have hlate : ∀ look ≤ polls - 1, ¬ group.FirstFound look :=
          fun look hlook hfound => hearly ⟨look, hlook, hfound⟩
        rw [terminate_late hlate hreturn]
        exact Or.inr hp
  · intro look hexited
    have hstays : ∀ i, look ≤ i → group.exited i group.child = true := by
      intro i hi
      induction i, hi using Nat.le_induction with
      | base => exact hexited
      | succ i _ ih => exact group.stays i group.child ih
    refine ⟨look + 2, ?_⟩
    unfold terminateProcessGroup
    split
    · exact ⟨_, rfl⟩
    split
    · exact grace_returns fun i hi => hstays i (by omega)
    · exact ⟨_, rfl⟩

/-- The server has forked a helper and is gone: its exit has been waited for, which is
how `receive_expected_response` comes to `child_exited`. -/
def helperLeft : GroupTimeline Nat where
  pgid := 4711
  child := 4711
  descendants := [4712]
  exited _ p := p = 4711
  reapedBefore := true
  spawned := by decide
  stays _ _ h := h
  wasExited _ := rfl

/-- The helper is not even sent `SIGTERM`. -/
theorem helper_survives :
    ∃ result, helperLeft.terminateProcessGroup 200 0 = some result ∧
      ¬ helperLeft.NoSurvivor result ∧ result.2.terminated = [] := by
  refine ⟨(0, { reaped := true }), rfl, ?_, rfl⟩
  intro h
  rcases h 4712 (by decide) with hexited | hkilled
  · exact absurd hexited (by decide)
  · exact absurd hkilled List.not_mem_nil

end GroupTimeline

end NativeGuard.Process
