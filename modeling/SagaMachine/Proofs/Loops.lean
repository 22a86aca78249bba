import SagaMachine.Proofs.Settlement

/-!
# The loops behind the walks

The walks over the wait table are written as recursive functions. Here they are taken apart
into the rounds of the loops that they stand for: a round of a withdrawal takes one effect from
its work list (`Waits.Detaching.round`), a round of a climb decides one combinator
(`Waits.Climbing.round`). Run round by round from any table, the loops come to an end, and there
they have what the functions give.

Main statements: `Waits.detach_ends`, `Waits.climb_ends`.
-/

namespace SagaMachine

/-- Some rounds of a loop, one after the other. -/
inductive Loop.Rounds {σ : Type} (round : σ → Option σ) : Nat → σ → σ → Prop
  | none (s : σ) : Rounds round 0 s s
  | one {s s' s'' : σ} {n : Nat} (h : round s = some s') (hs : Rounds round n s' s'') :
      Rounds round (n + 1) s s''

/-- A loop comes to its end after a number of rounds. -/
def Loop.Ends {σ : Type} (round : σ → Option σ) (n : Nat) (s s' : σ) : Prop :=
  Loop.Rounds round n s s' ∧ round s' = none

theorem Loop.Rounds.trans {σ : Type} {round : σ → Option σ} {s s' s'' : σ} {n m : Nat}
    (h : Loop.Rounds round n s s') (h' : Loop.Rounds round m s' s'') :
    Loop.Rounds round (n + m) s s'' := by
  induction h with
  | none => simpa using h'
  | one hs _ ih =>
    rw [Nat.add_right_comm]
    exact .one hs (ih h')

/-- What holds at first, and is kept by every round, holds after some rounds. -/
theorem Loop.Rounds.keeps {σ : Type} {round : σ → Option σ} {P : σ → Prop} {s s' : σ} {n : Nat}
    (h : Loop.Rounds round n s s') (hs : P s) (step : ∀ {s s'}, P s → round s = some s' → P s') :
    P s' := by
  induction h with
  | none => exact hs
  | one hr _ ih => exact ih (step hs hr)

namespace Waits

/-! ## Withdrawing -/

/-- The state of a withdrawal: the table, the work list, and what has happened so far. -/
structure Detaching where
  waits : Waits
  work : List EffectId
  passages : List Passage

/-- One round of a withdrawal: the members of what is taken out are next, the last one first. -/
def Detaching.round (d : Detaching) : Option Detaching :=
  match d.work with
  | [] => none
  | id :: work =>
    match d.waits.get? id with
    | none => some { d with work }
    | some wait => some
      { waits := d.waits.erase id
        work := wait.kind.members.reverse ++ work
        passages := d.passages ++ [.withdrawn id wait] }

/-- The number of members of the combinators that a withdrawal took out. -/
def withdrawnMembers : List Passage → Nat
  | [] => 0
  | .withdrawn _ wait :: ps => wait.kind.members.length + withdrawnMembers ps
  | .settled .. :: ps => withdrawnMembers ps

/-- A withdrawal ends: each effect of its work list takes one round, and so does each member. -/
theorem detach_ends (waits : Waits) (ids : List EffectId) (ps : List Passage) :
    Loop.Ends Detaching.round (ids.length + withdrawnMembers (waits.detach ids).1)
      ⟨waits, ids, ps⟩ ⟨(waits.detach ids).2, [], ps ++ (waits.detach ids).1⟩ := by
  refine ⟨?_, rfl⟩
  fun_induction detach waits ids generalizing ps with
  | case1 waits =>
    rw [List.append_nil]
    exact .none _
  | case2 waits id work hget ih =>
    rw [List.length_cons, Nat.add_right_comm]
    exact .one (by simp only [Detaching.round, hget]) (ih ps)
  | case3 waits id work wait hget r ih =>
    have h := ih (ps ++ [.withdrawn id wait])
    rw [List.append_assoc, List.singleton_append] at h
    have hlen : (id :: work).length + withdrawnMembers (.withdrawn id wait :: r.1) =
        (wait.kind.members.reverse ++ work).length + withdrawnMembers r.1 + 1 := by
      simp only [withdrawnMembers, List.length_cons, List.length_append, List.length_reverse]
      omega
    rw [hlen]
    exact .one (by simp only [Detaching.round, hget]) h

/-! ## Climbing -/

/-- The state of a climb: the table, and the effect that settles, with whom it belongs to and
where it reports. -/
structure Climbing where
  waits : Waits
  task : TaskId
  id : EffectId
  link : Link
  signal : Signal

namespace Climbing

/-- The climb from an effect that is taken out of the table. -/
def start (waits : Waits) (id : EffectId) (wait : Wait) (signal : Signal) : Climbing :=
  ⟨waits.erase id, wait.task, id, wait.link, signal⟩

/-- What the climb comes to. -/
def result (c : Climbing) : Climb := climb c.waits c.task c.id c.link c.signal

/-- The task that goes on if the climb has come to its end here. -/
def wakeup (c : Climbing) : Option Wakeup :=
  match c.link with
  | .task => some ⟨c.task, c.id, c.signal⟩
  | _ => none

/-- One round of a climb: the combinator above is decided, if it can be. -/
def round (c : Climbing) : Option Climbing :=
  match c.link with
  | .task => none
  | .race p slot =>
    match c.waits.get? p with
    | none => none
    | some wait =>
      let r := closeRace (c.waits.erase p) wait.kind slot c.signal
      some ⟨r.2.2, wait.task, p, wait.link, r.1⟩
  | .all p slot =>
    let m := c.waits.merge p slot c.signal
    match m.1, m.2.get? p with
    | .complete, some wait =>
      some ⟨m.2.erase p, wait.task, p, wait.link, collect wait.kind⟩
    | .failed signal, some wait =>
      some ⟨(detachEach (m.2.erase p) wait.kind.members).2, wait.task, p, wait.link, signal⟩
    | _, _ => none

variable {c c' : Climbing}

/-- After a round the climb goes on as from where the round has come to. -/
theorem result_of_round (h : c.round = some c') : ∃ ps, c.result = c'.result.after ps := by
  obtain ⟨waits, task, id, link, signal⟩ := c
  unfold result
  cases link with
  | task => cases h
  | race p slot =>
    simp only [round] at h
    rw [climb]
    split at h
    · cases h
    · rename_i wait hp
      obtain rfl := Option.some.inj h
      split
      · rename_i hp'
        rw [hp] at hp'
        cases hp'
      · rename_i wait' hp'
        rw [hp] at hp'
        cases hp'
        exact ⟨_, rfl⟩
  | all p slot =>
    simp only [round] at h
    rw [climb]
    simp only
    split at h
    · rename_i wait hm hp
      obtain rfl := Option.some.inj h
      split <;> rename_i hm'
      · rw [hm] at hm'
        cases hm'
      · split
        · rename_i hp'
          rw [hp] at hp'
          cases hp'
        · rename_i wait' hp'
          rw [hp] at hp'
          cases hp'
          exact ⟨_, rfl⟩
      · rw [hm] at hm'
        cases hm'
    · rename_i result wait hm hp
      obtain rfl := Option.some.inj h
      split <;> rename_i hm'
      · rw [hm] at hm'
        cases hm'
      · rw [hm] at hm'
        cases hm'
      · rw [hm] at hm'
        cases hm'
        split
        · rename_i hp'
          rw [hp] at hp'
          cases hp'
        · rename_i wait' hp'
          rw [hp] at hp'
          cases hp'
          exact ⟨_, rfl⟩
    · cases h

/-- Where there is no round the climb is at its end. -/
theorem wakeup_of_round (h : c.round = none) : c.result.wakeup = c.wakeup := by
  obtain ⟨waits, task, id, link, signal⟩ := c
  unfold result
  cases link with
  | task =>
    rw [climb]
    rfl
  | race p slot =>
    simp only [round] at h
    rw [climb]
    split at h
    · rename_i hp
      split
      · rfl
      · rename_i wait' hp'
        rw [hp] at hp'
        cases hp'
    · cases h
  | all p slot =>
    simp only [round] at h
    rw [climb]
    simp only
    split <;> rename_i hm
    · rfl
    · split
      · rfl
      · rename_i wait hp
        simp [hm, hp] at h
    · split
      · rfl
      · rename_i wait hp
        simp [hm, hp] at h

/-- Every round takes a combinator out of the table. -/
theorem size_of_round (h : c.round = some c') : c'.waits.size < c.waits.size := by
  obtain ⟨waits, task, id, link, signal⟩ := c
  cases link with
  | task => cases h
  | race p slot =>
    simp only [round] at h
    split at h
    · cases h
    · rename_i wait hp
      obtain rfl := Option.some.inj h
      exact Nat.lt_of_le_of_lt (size_closeRace_le ..) (Table.size_erase_lt hp)
  | all p slot =>
    simp only [round] at h
    have hsize := size_merge waits p slot signal
    split at h
    · rename_i wait hm hp
      obtain rfl := Option.some.inj h
      exact Nat.lt_of_lt_of_eq (Table.size_erase_lt hp) hsize
    · rename_i result wait hm hp
      obtain rfl := Option.some.inj h
      exact Nat.lt_of_le_of_lt (size_detachEach_le ..)
        (Nat.lt_of_lt_of_eq (Table.size_erase_lt hp) hsize)
    · cases h

end Climbing

/-- A climb ends after no more rounds than there are effects in the table. -/
theorem climb_ends (c : Climbing) :
    ∃ n c', Loop.Ends Climbing.round n c c' ∧ n ≤ c.waits.size ∧ c.result.wakeup = c'.wakeup := by
  induction hsize : c.waits.size using Nat.strongRecOn generalizing c with
  | _ size ih =>
  cases hr : c.round with
  | none => exact ⟨0, c, ⟨.none c, hr⟩, Nat.zero_le _, Climbing.wakeup_of_round hr⟩
  | some c₁ =>
    have hlt := Climbing.size_of_round hr
    obtain ⟨n, c', ⟨hrounds, hend⟩, hn, hw⟩ := ih _ (hsize ▸ hlt) c₁ rfl
    obtain ⟨ps, hps⟩ := Climbing.result_of_round hr
    refine ⟨n + 1, c', ⟨.one hr hrounds, hend⟩, by omega, ?_⟩
    rw [hps]
    exact hw

end Waits

end SagaMachine
