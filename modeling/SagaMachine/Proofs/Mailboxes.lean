import SagaMachine.Mailbox

/-!
# One effect for each step

Within one step a body is an arbitrary program. It polls performs, old and new ones and other
futures, in any order and as often as it likes, and goes on with what it sees, until it returns or
comes to rest. However it does this, the mailbox ends up with what the new performs left in it: the
first effect, and a mark if there was another one.

Main statement: `Play.resume_eq`.
-/

namespace SagaMachine

variable {ε : Type}

/-! ## What is left in a mailbox -/

/-- The effect that a perform leaves in the mailbox when it is polled. -/
def Awaiting.parks? : Awaiting ε → Option ε
  | .unsent e => some e
  | _ => none

/-- The effects that are left in the mailbox when some futures are polled. -/
def parked (ws : List (Awaiting ε)) : List ε := ws.filterMap Awaiting.parks?

/-- What the step of a body comes to that is at rest and has left some effects. -/
def Step.ofParked : List ε → Step ε
  | [] => .complete (.error .foreignAwait)
  | [e] => .yielded e
  | _ => .complete (.error Mailbox.crowdedFault)

namespace Mailbox

/-- The slot has the first of some effects, and others are only noted. -/
structure Holds (m : Mailbox ε) (es : List ε) : Prop where
  slot : m.slot = es.head?
  crowded : m.crowded = decide (1 < es.length)

variable {m : Mailbox ε} {es : List ε}

theorem holds_opened (a : Option Answer) : (opened a : Mailbox ε).Holds [] := ⟨rfl, rfl⟩

theorem Holds.poll (h : m.Holds es) (x : Awaiting ε) :
    (x.poll m).2.Holds (es ++ x.parks?.toList) := by
  obtain ⟨hslot, hcrowded⟩ := h
  cases x with
  | unsent e =>
    cases es with
    | nil =>
      have hempty : m.slot = none := hslot
      have hfirst : m.crowded = false := hcrowded
      exact ⟨by simp [Awaiting.poll, hempty, Awaiting.parks?],
        by simp [Awaiting.poll, hempty, hfirst, Awaiting.parks?]⟩
    | cons e' es =>
      have hfull : m.slot = some e' := hslot
      exact ⟨by simp [Awaiting.poll, hfull], by simp [Awaiting.poll, hfull, Awaiting.parks?]⟩
  | sent =>
    have hes : es ++ (Awaiting.sent : Awaiting ε).parks?.toList = es := List.append_nil es
    rw [hes]
    simp only [Awaiting.poll]
    cases m.answer <;> exact ⟨hslot, hcrowded⟩
  | answered | foreign => simpa [Awaiting.poll, Awaiting.parks?] using Holds.mk hslot hcrowded

theorem Holds.pollAll (h : m.Holds es) (ws : List (Awaiting ε)) :
    (Awaiting.pollAll m ws).2.Holds (es ++ parked ws) := by
  induction ws generalizing m es with
  | nil => simpa [Awaiting.pollAll, parked] using h
  | cons x ws ih =>
    have hall := ih (h.poll x)
    rw [List.append_assoc] at hall
    have hparked : parked (x :: ws) = x.parks?.toList ++ parked ws := by
      unfold parked
      cases hx : x.parks? <;> simp [hx]
    rwa [← hparked] at hall

/-- What a step comes to is a matter of what was left in the mailbox. -/
theorem Holds.verdict (h : m.Holds es) : m.verdict = .ofParked es := by
  obtain ⟨hslot, hcrowded⟩ := h
  unfold Mailbox.verdict
  rw [hslot, hcrowded]
  match es with
  | [] => rfl
  | [e] => rfl
  | e :: e' :: es => simp [Step.ofParked]

end Mailbox

/-! ## Bodies as arbitrary programs -/

/-- What a body does within one step. -/
inductive Play (ε : Type) where
  /-- The body waits for something. -/
  | rests
  | returns (a : Answer)
  /-- The body polls a future and goes on with what this has become. -/
  | polls (x : Awaiting ε) (go : Awaiting ε → Play ε)

namespace Play

/-- What was polled, what the body returned, and what the mailbox is like in the end. -/
structure Result (ε : Type) where
  polled : List (Awaiting ε)
  returned : Option Answer
  mailbox : Mailbox ε

/-- Go through a step. -/
def run (m : Mailbox ε) : Play ε → Result ε
  | .rests => ⟨[], none, m⟩
  | .returns a => ⟨[], some a, m⟩
  | .polls x go =>
    let r := x.poll m
    let q := (go r.1).run r.2
    { q with polled := x :: q.polled }

/--
Resume a body with an answer. What is left in the mailbox is taken out before the step is judged,
and the mailbox is kept for the next step.
-/
def resume (m : Mailbox ε) (p : Play ε) (a : Option Answer) : Step ε × Mailbox ε :=
  let r := p.run { m with answer := a }
  (r.returned.elim r.mailbox.verdict .complete,
    { r.mailbox with slot := none, crowded := false, answer := none })

/-- Resume a body several times, in each step with a program and an answer of its own. -/
def resumeAll (m : Mailbox ε) : List (Play ε × Option Answer) → List (Step ε) × Mailbox ε
  | [] => ([], m)
  | (p, a) :: ps =>
    let r := p.resume m a
    let q := resumeAll r.2 ps
    (r.1 :: q.1, q.2)

/-- The performs that were polled for the first time in a step with a fresh mailbox. -/
def effects (p : Play ε) (a : Option Answer) : List ε := parked (p.run (.opened a)).polled

theorem mailbox_run (m : Mailbox ε) (p : Play ε) :
    (p.run m).mailbox = (Awaiting.pollAll m (p.run m).polled).2 := by
  induction p generalizing m with
  | rests | returns => rfl
  | polls x go ih => exact ih _ _

/--
A body that returns completes with what it returned, whatever it has left in the mailbox. A body at
rest yields the one effect that it has left there, and fails if there are more, or none. Afterwards
the mailbox is empty.
-/
theorem resume_eq (p : Play ε) (a : Option Answer) :
    p.resume {} a = ((p.run (.opened a)).returned.elim (.ofParked (p.effects a)) .complete, {}) := by
  have hholds := (Mailbox.holds_opened a).pollAll (p.run (.opened a)).polled
  rw [← mailbox_run, List.nil_append] at hholds
  show ((p.run (.opened a)).returned.elim (p.run (.opened a)).mailbox.verdict .complete,
    ({} : Mailbox ε)) = _
  rw [hholds.verdict]
  rfl

/-- Nothing of one step is seen by the next. -/
theorem resumeAll_eq (ps : List (Play ε × Option Answer)) :
    resumeAll {} ps = (ps.map fun q =>
      (q.1.run (.opened q.2)).returned.elim (.ofParked (q.1.effects q.2)) .complete, {}) := by
  induction ps with
  | nil => rfl
  | cons q ps ih =>
    obtain ⟨p, a⟩ := q
    simp only [resumeAll, resume_eq, ih, List.map_cons]

end Play

end SagaMachine
