import Mathlib.Data.List.Nodup
import Mathlib.Data.List.Perm.Basic
import Mathlib.Data.List.TakeWhile
import SagaMachine.Machine.Effects
import SagaMachine.Machine.Operations

/-!
# The laws of deferred results

A story is a deferred together with the work that may run behind it, and with what happened: which
settlements were attempted and what they returned, which listeners were subscribed, and which of
them were told of which answer. Settlements, subscriptions, their withdrawal and the end of the work
come in any order. A listener is user code. It makes calls of its own on the deferred while the
call that told it is still under way, so the calls and returns to come are a list, like the
instructions of the machine.

Main statement: `Story.answers_once`.
-/

namespace SagaMachine

/-! ## Deferreds and their timers -/

namespace Deferred

variable {κ : Type} {d : Deferred κ}

theorem settle_of_settled {x : Answer} (h : d.outcome = some x) (a : Answer) :
    d.settle a = ⟨false, none, d⟩ := by
  simp only [settle, h]

theorem settle_of_open (h : d.outcome = none) (a : Answer) :
    d.settle a = ⟨true, d.listener, { outcome := some a }⟩ := by
  simp only [settle, h]

theorem subscribe_of_settled {a : Answer} (h : d.outcome = some a) (k : κ) :
    d.subscribe k = (some a, d) := by
  simp only [subscribe, h]

theorem subscribe_of_open (h : d.outcome = none) (k : κ) :
    d.subscribe k = (none, { d with listener := some k }) := by
  simp only [subscribe, h]

end Deferred

/-- A deferred and the timers that run behind it. -/
structure Cell (κ : Type) where
  deferred : Deferred κ := {}
  timers : List Timer := []

namespace Cell

variable {κ : Type}

/-- A new deferred, with some work behind it or with none. -/
def spawn (work : Option Timer) : Cell κ :=
  { deferred := { timer := work.map Timer.id }, timers := work.toList }

def settle (c : Cell κ) (a : Answer) : Cell κ :=
  { c with deferred := (c.deferred.settle a).deferred }

def subscribe (c : Cell κ) (k : κ) : Cell κ := { c with deferred := (c.deferred.subscribe k).2 }

/-- A timer does not run any longer. -/
def stop (c : Cell κ) (id : TimerId) : Cell κ :=
  { c with timers := c.timers.filter fun t => t.id ≠ id }

/-- Stop listening; the timer that the deferred names is stopped. -/
def unsubscribe (c : Cell κ) : Cell κ :=
  let r := c.deferred.unsubscribe
  { deferred := r.2
    timers := r.1.elim c.timers fun id => c.timers.filter fun t => t.id ≠ id }

/-- If the deferred names every timer behind it, all of them are stopped. -/
theorem timers_unsubscribe {c : Cell κ} (h : ∀ t ∈ c.timers, c.deferred.timer = some t.id) :
    c.unsubscribe.timers = [] := by
  obtain ⟨⟨_, _, timer⟩, timers⟩ := c
  cases timer with
  | none => exact List.eq_nil_iff_forall_not_mem.2 fun t ht => nomatch h t ht
  | some id =>
    refine List.filter_eq_nil_iff.2 fun t ht => ?_
    simp [Option.some.inj (h t ht)]

theorem timers_unsubscribe_subset (c : Cell κ) : c.unsubscribe.timers ⊆ c.timers := by
  obtain ⟨⟨_, _, timer⟩, timers⟩ := c
  cases timer with
  | none => exact List.Subset.refl _
  | some id => exact fun t ht => (List.mem_filter.1 ht).1

end Cell

/-! ## Stories -/

namespace Story

/-- A call on the deferred. -/
inductive Call where
  | settle (a : Answer)
  | subscribe
  | unsubscribe
  /-- The work behind the deferred comes to its end. -/
  | elapse

/-- Settle by hand with a value. -/
def Call.resolve (v : Value) : Call := .settle (.ok v)

/-- Settle by hand with a fault. -/
def Call.reject (f : Fault) : Call := .settle (.error f)

/-- Something that happened to the deferred. Settlements and subscriptions are numbered. -/
inductive Event where
  | attempted (a : Answer)
  /-- An attempt to settle returned. -/
  | returned (n : Nat) (accepted : Bool)
  | subscribed (n : Nat)
  /-- A listener was told of an answer. -/
  | heard (n : Nat) (a : Answer)
  | unsubscribed
  | elapsed

/-- The answer of an attempted settlement. -/
def Event.answer? : Event → Option Answer
  | .attempted a => some a
  | _ => none

/-- The attempt that returned. -/
def Event.returned? : Event → Option Nat
  | .returned n _ => some n
  | _ => none

/-- The listener that was subscribed. -/
def Event.subscribed? : Event → Option Nat
  | .subscribed n => some n
  | _ => none

/-- The listener that was told. -/
def Event.heard? : Event → Option Nat
  | .heard n _ => some n
  | _ => none

/-- What is still to be done. -/
inductive Due where
  | call (c : Call)
  /-- An attempt to settle returns. -/
  | reply (n : Nat) (accepted : Bool)

/-- The attempt that is to return. -/
def Due.reply? : Due → Option Nat
  | .reply n _ => some n
  | .call _ => none

end Story

/-- A deferred and what happened to it. -/
structure Story where
  cell : Cell Nat
  due : List Story.Due := []
  attempts : Nat := 0
  subscriptions : Nat := 0
  events : List Story.Event := []

namespace Story

/-- A new deferred, with the calls that are made on it. -/
def start (work : Option Timer) (calls : List Call) : Story :=
  { cell := .spawn work, due := calls.map .call }

section

variable (script : Nat → List Call) (s : Story)

/-- A listener is told of the answer, and makes its calls. -/
def tell (n : Nat) (a : Answer) : Story :=
  { s with
    due := (script n).map .call ++ s.due
    events := s.events ++ [.heard n a] }

def settle (a : Answer) : Story :=
  let r := s.cell.deferred.settle a
  let s : Story :=
    { s with
      cell := s.cell.settle a
      due := .reply s.attempts r.accepted :: s.due
      attempts := s.attempts + 1
      events := s.events ++ [.attempted a] }
  r.listener.elim s fun n => s.tell script n a

def subscribe : Story :=
  let n := s.subscriptions
  let s' : Story :=
    { s with
      cell := s.cell.subscribe n
      subscriptions := n + 1
      events := s.events ++ [.subscribed n] }
  (s.cell.deferred.subscribe n).1.elim s' (s'.tell script n)

def unsubscribe : Story :=
  { s with cell := s.cell.unsubscribe, events := s.events ++ [.unsubscribed] }

/-- The work ends and settles the deferred; work that was stopped does not end. -/
def elapse : Story :=
  match s.cell.timers with
  | [] => s
  | t :: _ =>
    { s with
      cell := s.cell.stop t.id
      due := .call (.settle t.answer) :: s.due
      events := s.events ++ [.elapsed] }

def call : Call → Story
  | .settle a => s.settle script a
  | .subscribe => s.subscribe script
  | .unsubscribe => s.unsubscribe
  | .elapse => s.elapse

/-- Do what is due next. -/
def step : Story :=
  match s.due with
  | [] => s
  | .reply n accepted :: due => { s with due, events := s.events ++ [.returned n accepted] }
  | .call c :: due => ({ s with due } : Story).call script c

/-- Do several things, one after the other. -/
def run : Nat → Story
  | 0 => s
  | k + 1 => (run k).step script

end

/-! ## What stories tell -/

/-- What happened before the first attempt to settle. -/
def before (es : List Event) : List Event := es.takeWhile fun e => e.answer?.isNone

/-- The first attempt to settle, and what happened from then on. -/
def since (es : List Event) : List Event := es.dropWhile fun e => e.answer?.isNone

/-- A listener was subscribed and not withdrawn. -/
def Holds (es : List Event) (n : Nat) : Prop :=
  ∃ pre post, es = pre ++ .subscribed n :: post ∧ .unsubscribed ∉ post

/-- A listener waits for the settlement. -/
def InForce (es : List Event) (n : Nat) : Prop := since es = [] ∧ Holds (before es) n

/-- A listener was not withdrawn before the settlement, or was subscribed after it. -/
def Owed (es : List Event) (n : Nat) : Prop :=
  since es ≠ [] ∧ Holds (before es) n ∨ .subscribed n ∈ since es

/-- Nobody was subscribed while somebody else was waiting. -/
def Exclusive (es : List Event) : Prop :=
  ∀ pre n post, es = pre ++ .subscribed n :: post → ∀ m, ¬ InForce pre m

/-! ## Events -/

section

variable {es : List Event} {e : Event} {n : Nat}

theorem since_eq_nil : since es = [] ↔ ∀ e ∈ es, e.answer? = none := by
  simp only [since, List.dropWhile_eq_nil_iff, Option.isNone_iff_eq_none]

theorem findSome?_eq_none : es.findSome? Event.answer? = none ↔ since es = [] := by
  rw [since_eq_nil, List.findSome?_eq_none_iff]

theorem before_eq_self (h : since es = []) : before es = es :=
  List.takeWhile_eq_self_iff.2 (List.dropWhile_eq_nil_iff.1 h)

theorem since_concat_of_nil (h : since es = []) : since (es ++ [e]) = since [e] := by
  unfold since at h ⊢
  rw [List.dropWhile_append, h]
  rfl

theorem since_concat_of_ne (h : since es ≠ []) : since (es ++ [e]) = since es ++ [e] := by
  unfold since at h ⊢
  rw [List.dropWhile_append, if_neg (by rwa [List.isEmpty_iff])]

theorem before_concat_of_nil (h : since es = []) : before (es ++ [e]) = es ++ before [e] :=
  List.takeWhile_append_of_pos (List.dropWhile_eq_nil_iff.1 h)

theorem before_concat_of_ne (h : since es ≠ []) : before (es ++ [e]) = before es := by
  unfold before
  rw [List.takeWhile_append, if_neg]
  intro hlen
  refine h (List.dropWhile_eq_nil_iff.2 fun x hx => ?_)
  rw [← (List.takeWhile_prefix _).eq_of_length hlen] at hx
  exact List.mem_takeWhile_imp (p := fun e : Event => e.answer?.isNone) hx

theorem holds_concat : Holds (es ++ [e]) n ↔ e = .subscribed n ∨ Holds es n ∧ e ≠ .unsubscribed := by
  constructor
  · rintro ⟨pre, post, h, hpost⟩
    rcases post.eq_nil_or_concat with rfl | ⟨post, x, rfl⟩
    · exact Or.inl (List.singleton_inj.1 (List.append_inj' h rfl).2)
    · rw [List.concat_eq_append] at h hpost
      rw [← List.cons_append, ← List.append_assoc] at h
      obtain ⟨rfl, hx⟩ := List.append_inj' h rfl
      obtain rfl := List.singleton_inj.1 hx
      exact Or.inr ⟨⟨pre, post, rfl, fun h => hpost (List.mem_append_left _ h)⟩, fun h =>
        hpost (List.mem_append_right _ (List.mem_singleton.2 h.symm))⟩
  · rintro (rfl | ⟨⟨pre, post, rfl, hpost⟩, he⟩)
    · exact ⟨es, [], rfl, List.not_mem_nil⟩
    · exact ⟨pre, post ++ [e], by simp, by simp [hpost, he.symm]⟩

theorem inForce_iff : InForce es n ↔ since es = [] ∧ Holds es n :=
  and_congr_right fun h => by rw [before_eq_self h]

theorem inForce_concat : InForce (es ++ [e]) n ↔ since es = [] ∧ e.answer? = none ∧
    (e = .subscribed n ∨ Holds es n ∧ e ≠ .unsubscribed) := by
  rw [inForce_iff, holds_concat]
  by_cases h : since es = []
  · rw [since_concat_of_nil h, since_eq_nil, List.forall_mem_singleton]
    exact ⟨fun ⟨ha, hh⟩ => ⟨h, ha, hh⟩, And.right⟩
  · rw [since_concat_of_ne h]
    simp [h]

theorem owed_of_since (h : since es = []) : ¬ Owed es n := by
  simp [Owed, h]

theorem Owed.mem (h : Owed es n) : .subscribed n ∈ es := by
  have hes : before es ++ since es = es := List.takeWhile_append_dropWhile
  rw [← hes, List.mem_append]
  rcases h with ⟨-, pre, post, hpre, -⟩ | h
  · exact Or.inl (hpre ▸ List.mem_append_right _ List.mem_cons_self)
  · exact Or.inr h

theorem owed_concat : Owed (es ++ [e]) n ↔ Owed es n ∨ InForce es n ∧ e.answer? ≠ none ∨
    since es ≠ [] ∧ e = .subscribed n := by
  rw [inForce_iff]
  by_cases h : since es = []
  · have hno : ¬ Owed es n := owed_of_since h
    rw [Owed, since_concat_of_nil h, before_concat_of_nil h]
    cases he : e.answer? with
    | none =>
      have hnil : since [e] = [] := since_eq_nil.2 (List.forall_mem_singleton.2 he)
      simp [hnil, hno, h]
    | some a =>
      obtain rfl : e = .attempted a := by
        cases e <;> cases he
        rfl
      have hone : since [.attempted a] = [.attempted a] := rfl
      have hnil : before [.attempted a] = [] := rfl
      simp [hone, hnil, hno, h]
  · rw [Owed, since_concat_of_ne h, before_concat_of_ne h, List.mem_append, List.mem_singleton,
      @eq_comm _ (Event.subscribed n) e]
    simp [Owed, h, or_assoc]

/-- An event is one of those before, or the last one. -/
theorem split_concat {x : Event} {pre post : List Event} (h : es ++ [e] = pre ++ x :: post) :
    (∃ post', es = pre ++ x :: post') ∨ es = pre ∧ e = x := by
  rcases post.eq_nil_or_concat with rfl | ⟨post, y, rfl⟩
  · exact Or.inr ((List.append_inj' h rfl).imp_right List.singleton_inj.1)
  · rw [List.concat_eq_append, ← List.cons_append, ← List.append_assoc] at h
    exact Or.inl ⟨post, (List.append_inj' h rfl).1⟩

theorem Exclusive.of_append {l : List Event} (h : Exclusive (es ++ l)) : Exclusive es := by
  intro pre n post hsplit
  exact h pre n (post ++ l) (by simp [hsplit])

end

theorem filterMap_concat (f : Event → Option Nat) (es : List Event) (e : Event) :
    (es ++ [e]).filterMap f = es.filterMap f ++ (f e).toList := by
  rw [List.filterMap_append]
  cases h : f e <;> simp [h]

/-! ## The outcome and the listeners -/

/--
The deferred is as the events tell. Those were told of the answer who are owed it, but for one who
is being told.
-/
structure Told (d : Deferred Nat) (es : List Event) (next : Option Nat) : Prop where
  outcome : d.outcome = es.findSome? Event.answer?
  listener : ∀ n, d.listener = some n ↔ InForce es n
  told : ∀ n, (∃ a, .heard n a ∈ es) ∨ next = some n ↔ Owed es n
  once : (es.filterMap Event.heard? ++ next.toList).Nodup
  answer : ∀ n a, .heard n a ∈ es → d.outcome = some a

namespace Told

variable {d : Deferred Nat} {es : List Event} {e : Event} {next : Option Nat}

theorem open_iff (h : Told d es next) : d.outcome = none ↔ since es = [] := by
  rw [h.outcome, findSome?_eq_none]

/-- Nobody is told before the settlement. -/
theorem not_heard (h : Told d es next) (hopen : since es = []) (n : Nat) (a : Answer) :
    .heard n a ∉ es :=
  fun hn => owed_of_since hopen ((h.told n).1 (Or.inl ⟨a, hn⟩))

/-- An event that is about neither settlement nor listeners. -/
theorem quiet (h : Told d es next) (ha : e.answer? = none) (hs : e.subscribed? = none)
    (hh : e.heard? = none) (hu : e ≠ .unsubscribed) : Told d (es ++ [e]) next where
  outcome := by simp [h.outcome, ha]
  listener n := by
    have hne : e ≠ .subscribed n := by rintro rfl; cases hs
    rw [h.listener, inForce_concat, inForce_iff]
    simp [ha, hu, hne]
  told n := by
    have hne : e ≠ .subscribed n := by rintro rfl; cases hs
    have hne' (a : Answer) : .heard n a ≠ e := by rintro rfl; cases hh
    simp [owed_concat, ← h.told, ha, hne, hne']
  once := by simpa [filterMap_concat, hh] using h.once
  answer n a hn := by
    have hne : .heard n a ≠ e := by rintro rfl; cases hh
    exact h.answer n a (by simpa [hne] using hn)

theorem unsubscribed (h : Told d es next) : Told d.unsubscribe.2 (es ++ [.unsubscribed]) next where
  outcome := by simp [Deferred.unsubscribe, h.outcome, Event.answer?]
  listener n := by simp [Deferred.unsubscribe, inForce_concat]
  told n := by simp [owed_concat, ← h.told, Event.answer?]
  once := by
    rw [filterMap_concat]
    simpa [Event.heard?] using h.once
  answer n a hn := h.answer n a (by simpa using hn)

/-- A later attempt changes nothing. -/
theorem attempted (h : Told d es next) (hset : since es ≠ []) (a : Answer) :
    Told d (es ++ [.attempted a]) next where
  outcome := by
    have hsome : es.findSome? Event.answer? ≠ none := mt findSome?_eq_none.1 hset
    rw [h.outcome, List.findSome?_append, Option.or_of_isSome (Option.isSome_iff_ne_none.2 hsome)]
  listener n := by
    rw [h.listener, inForce_concat, inForce_iff]
    simp [hset]
  told n := by simp [owed_concat, ← h.told, inForce_iff, hset]
  once := by
    rw [filterMap_concat]
    simpa [Event.heard?] using h.once
  answer n b hn := h.answer n b (by simpa using hn)

/-- The first attempt settles the deferred; the listener is to be told. -/
theorem settles (h : Told d es none) (hopen : since es = []) (a : Answer) :
    Told { outcome := some a } (es ++ [.attempted a]) d.listener where
  outcome := by
    have hnone : es.findSome? Event.answer? = none := findSome?_eq_none.2 hopen
    simp [hnone, Event.answer?]
  listener n := by
    rw [inForce_concat]
    simp [Event.answer?]
  told n := by
    rw [h.listener, owed_concat]
    simp [h.not_heard hopen, owed_of_since hopen, hopen, Event.answer?]
  once := by
    have hnil : es.filterMap Event.heard? = [] := by
      refine List.filterMap_eq_nil_iff.2 fun e he => ?_
      cases e with
      | heard n b => exact (h.not_heard hopen n b he).elim
      | _ => rfl
    rw [filterMap_concat, hnil]
    cases d.listener <;> simp [Event.heard?]
  answer n b hn := (h.not_heard hopen n b (by simpa using hn)).elim

/-- The one who is to be told is told. -/
theorem heard {n : Nat} {a : Answer} (h : Told d es (some n)) (ha : d.outcome = some a) :
    Told d (es ++ [.heard n a]) none where
  outcome := by simp [h.outcome, Event.answer?]
  listener m := by
    rw [h.listener, inForce_concat, inForce_iff]
    simp [Event.answer?]
  told m := by
    rw [owed_concat, ← h.told, Option.some.injEq, @eq_comm _ n m]
    simp [Event.answer?, exists_or]
  once := by
    rw [filterMap_concat]
    simpa [Event.heard?] using h.once
  answer m b hm := by
    rw [List.mem_append, List.mem_singleton] at hm
    rcases hm with hm | hm
    · exact h.answer m b hm
    · cases hm
      exact ha

/-- A listener waits for the settlement. -/
theorem subscribes {n : Nat} (h : Told d es none) (hopen : since es = [])
    (hfree : ∀ m, ¬ InForce es m) :
    Told { d with listener := some n } (es ++ [.subscribed n]) none where
  outcome := by simp [h.outcome, Event.answer?]
  listener m := by
    have hno : ¬ Holds es m := fun hm => hfree m (inForce_iff.2 ⟨hopen, hm⟩)
    rw [inForce_concat]
    simp [Event.answer?, hopen, hno]
  told m := by
    rw [owed_concat, ← h.told]
    simp [Event.answer?, hopen]
  once := by
    rw [filterMap_concat]
    simpa [Event.heard?] using h.once
  answer m b hm := h.answer m b (by simpa using hm)

/-- A listener that comes after the settlement is to be told at once. -/
theorem subscribed {n : Nat} (h : Told d es none) (hset : since es ≠ [])
    (hnew : .subscribed n ∉ es) : Told d (es ++ [.subscribed n]) (some n) where
  outcome := by simp [h.outcome, Event.answer?]
  listener m := by
    rw [h.listener, inForce_concat, inForce_iff]
    simp [hset]
  told m := by
    rw [owed_concat, ← h.told]
    simp [Event.answer?, hset]
  once := by
    rw [filterMap_concat, show Event.heard? (.subscribed n) = none from rfl, Option.toList_none,
      List.append_nil, List.nodup_append]
    refine ⟨by simpa using h.once, List.nodup_singleton n, fun m hm k hk => ?_⟩
    obtain rfl := List.mem_singleton.1 hk
    rintro rfl
    obtain ⟨e, he, hem⟩ := List.mem_filterMap.1 hm
    cases e with
    | heard m a => 
      cases hem
      exact hnew ((h.told _).1 (Or.inl ⟨a, he⟩)).mem
    | _ => cases hem
  answer m b hm := h.answer m b (by simpa using hm)

end Told

/-! ## The work behind the deferred -/

/-- While the deferred is open it names the work behind it, and no work ends that was stopped. -/
structure Stopped (c : Cell Nat) (es : List Event) : Prop where
  named : since es = [] → ∀ t ∈ c.timers, c.deferred.timer = some t.id
  stopped : .unsubscribed ∈ before es → c.timers = []
  idle : ∀ pre post, es = pre ++ .elapsed :: post → .unsubscribed ∉ before pre

namespace Stopped

variable {c c' : Cell Nat} {es : List Event} {e : Event}

theorem mem_before_concat (h : .unsubscribed ∈ before (es ++ [e])) (he : e ≠ .unsubscribed) :
    .unsubscribed ∈ before es := by
  by_cases hopen : since es = []
  · rw [before_concat_of_nil hopen, List.mem_append] at h
    rw [before_eq_self hopen]
    refine h.resolve_right fun hmem => he ?_
    exact (List.mem_singleton.1 ((List.takeWhile_prefix _).subset hmem)).symm
  · rwa [before_concat_of_ne hopen] at h

/-- An event that is not about the work. -/
theorem quiet (h : Stopped c es) (hu : e ≠ .unsubscribed) (he : e ≠ .elapsed)
    (ht : c'.timers = c.timers)
    (hd : e.answer? = none → c'.deferred.timer = c.deferred.timer) : Stopped c' (es ++ [e]) where
  named hopen t hmem := by
    rw [since_eq_nil, List.forall_mem_append, List.forall_mem_singleton] at hopen
    rw [hd hopen.2]
    exact h.named (since_eq_nil.2 hopen.1) t (ht ▸ hmem)
  stopped hmem := ht.trans (h.stopped (mem_before_concat hmem hu))
  idle pre post hsplit := by
    rcases split_concat hsplit with ⟨post', hes⟩ | ⟨-, rfl⟩
    · exact h.idle pre post' hes
    · exact (he rfl).elim

/-- Whoever stops listening before the settlement stops the work. -/
theorem unsubscribed (h : Stopped c es) : Stopped c.unsubscribe (es ++ [.unsubscribed]) where
  named hopen t hmem := by
    rw [since_eq_nil, List.forall_mem_append] at hopen
    rw [Cell.timers_unsubscribe (h.named (since_eq_nil.2 hopen.1))] at hmem
    cases hmem
  stopped hmem := by
    by_cases hopen : since es = []
    · exact Cell.timers_unsubscribe (h.named hopen)
    · rw [before_concat_of_ne hopen] at hmem
      exact List.subset_nil.1 (h.stopped hmem ▸ c.timers_unsubscribe_subset)
  idle pre post hsplit := by
    rcases split_concat hsplit with ⟨post', hes⟩ | ⟨-, he⟩
    · exact h.idle pre post' hes
    · cases he

/-- The work ends only if it runs. -/
theorem elapsed {t : Timer} (h : Stopped c es) (ht : t ∈ c.timers) :
    Stopped (c.stop t.id) (es ++ [.elapsed]) where
  named hopen u hu := by
    rw [since_eq_nil, List.forall_mem_append] at hopen
    exact h.named (since_eq_nil.2 hopen.1) u (List.mem_filter.1 hu).1
  stopped hmem := by
    rw [h.stopped (mem_before_concat hmem nofun)] at ht
    cases ht
  idle pre post hsplit := by
    rcases split_concat hsplit with ⟨post', hes⟩ | ⟨rfl, -⟩
    · exact h.idle pre post' hes
    · intro hmem
      rw [h.stopped hmem] at ht
      cases ht

end Stopped

/-! ## The calls -/

/-- Settlements and subscriptions are numbered, and of all settlements the first is accepted. -/
structure Numbered (s : Story) : Prop where
  subscribed : s.events.filterMap Event.subscribed? = List.range s.subscriptions
  attempts : (s.events.filterMap Event.answer?).length = s.attempts
  returns : (s.events.filterMap Event.returned? ++ s.due.filterMap Due.reply?).Perm
    (List.range s.attempts)
  first : ∀ n b, .returned n b ∈ s.events ∨ .reply n b ∈ s.due → b = decide (n = 0)

/-- What happened is so for the deferred and for the calls that are under way. -/
structure Sound (s : Story) : Prop where
  told : Told s.cell.deferred s.events none
  stopped : Stopped s.cell s.events
  numbered : Numbered s

variable {script : Nat → List Call} {s : Story}

theorem sound_start (work : Option Timer) (calls : List Call) : Sound (start work calls) where
  told :=
    { outcome := rfl
      listener := fun n => by
        rw [inForce_iff]
        refine ⟨nofun, ?_⟩
        rintro ⟨-, pre, post, h, -⟩
        cases pre <;> cases h
      told := fun n => by
        refine ⟨?_, fun h => (owed_of_since rfl h).elim⟩
        rintro (⟨a, h⟩ | h) <;> cases h
      once := List.nodup_nil
      answer := nofun }
  stopped :=
    { named := fun _ t ht => by
        cases work with
        | none => cases ht
        | some u =>
          obtain rfl := List.mem_singleton.1 ht
          rfl
      stopped := nofun
      idle := fun pre post h => by cases pre <;> cases h }
  numbered :=
    { subscribed := rfl
      attempts := rfl
      returns := by
        have h : (calls.map Due.call).filterMap Due.reply? = [] := by
          simp [List.filterMap_map, Due.reply?]
        simp [start, h]
      first := fun n b h => by simp [start] at h }

/-- An event that has no number, and calls that come to be due. -/
theorem Numbered.quiet {e : Event} (h : Numbered s) (hs : e.subscribed? = none)
    (ha : e.answer? = none) (hr : e.returned? = none) (calls : List Call) {c : Cell Nat} :
    Numbered { s with
      cell := c, due := calls.map .call ++ s.due, events := s.events ++ [e] } where
  subscribed := by rw [filterMap_concat, h.subscribed, hs, Option.toList_none, List.append_nil]
  attempts := by simp [h.attempts, ha]
  returns := by
    have hcalls : (calls.map Due.call).filterMap Due.reply? = [] := by
      simp [List.filterMap_map, Due.reply?]
    rw [filterMap_concat, hr, List.filterMap_append, hcalls]
    simpa using h.returns
  first n b hn := by
    have hne : .returned n b ≠ e := by rintro rfl; cases hr
    exact h.first n b (by simpa [hne] using hn)

/-- The one who is to be told is told, and makes its calls. -/
theorem Sound.tell {n : Nat} {a : Answer} (hd : Told s.cell.deferred s.events (some n))
    (hs : Stopped s.cell s.events) (hn : Numbered s) (ha : s.cell.deferred.outcome = some a) :
    Sound (s.tell script n a) where
  told := hd.heard ha
  stopped := hs.quiet nofun nofun rfl fun _ => rfl
  numbered := hn.quiet rfl rfl rfl (script n)

theorem Sound.settle (h : Sound s) (a : Answer) : Sound (s.settle script a) := by
  have hzero : s.cell.deferred.outcome = none ↔ s.attempts = 0 := by
    rw [h.told.open_iff, since_eq_nil, ← h.numbered.attempts, List.length_eq_zero_iff,
      List.filterMap_eq_nil_iff]
  have hstopped {d : Deferred Nat} :
      Stopped { s.cell with deferred := d } (s.events ++ [.attempted a]) :=
    h.stopped.quiet nofun nofun rfl nofun
  have hnumbered {d : Deferred Nat} {accepted : Bool} (hacc : accepted = decide (s.attempts = 0)) :
      Numbered { s with
        cell := { s.cell with deferred := d }
        due := .reply s.attempts accepted :: s.due
        attempts := s.attempts + 1
        events := s.events ++ [.attempted a] } := by
    refine ⟨?_, ?_, ?_, ?_⟩
    · rw [filterMap_concat, h.numbered.subscribed]
      exact List.append_nil _
    · simp [h.numbered.attempts, Event.answer?]
    · rw [filterMap_concat, List.range_succ]
      simp only [Event.returned?, Option.toList_none, List.append_nil, List.filterMap_cons,
        Due.reply?]
      exact List.perm_middle.trans ((h.numbered.returns.cons _).trans
        (List.perm_append_singleton _ _).symm)
    · intro n b hn
      simp only [List.mem_append, List.mem_cons, List.not_mem_nil, or_false, reduceCtorEq] at hn
      rcases hn with hn | hn | hn
      · exact h.numbered.first n b (Or.inl hn)
      · cases hn
        exact hacc
      · exact h.numbered.first n b (Or.inr hn)
  unfold Story.settle
  cases hout : s.cell.deferred.outcome with
  | some x =>
    have hset : since s.events ≠ [] := mt h.told.open_iff.2 (by simp [hout])
    rw [Cell.settle, Deferred.settle_of_settled hout]
    exact ⟨h.told.attempted hset a, hstopped, hnumbered (by simp [← hzero, hout])⟩
  | none =>
    have hopen := h.told.open_iff.1 hout
    have htold := h.told.settles hopen a
    rw [Cell.settle, Deferred.settle_of_open hout]
    cases hl : s.cell.deferred.listener with
    | none =>
      rw [hl] at htold
      exact ⟨htold, hstopped, hnumbered (by simp [← hzero, hout])⟩
    | some n =>
      rw [hl] at htold
      exact Sound.tell htold hstopped (hnumbered (by simp [← hzero, hout])) rfl

theorem Sound.subscribe (h : Sound s) (hfree : ∀ m, ¬ InForce s.events m) :
    Sound (s.subscribe script) := by
  have hstopped {d : Deferred Nat} (hd : d.timer = s.cell.deferred.timer) :
      Stopped { s.cell with deferred := d } (s.events ++ [.subscribed s.subscriptions]) :=
    h.stopped.quiet nofun nofun rfl fun _ => hd
  have hnumbered {d : Deferred Nat} :
      Numbered { s with
        cell := { s.cell with deferred := d }
        subscriptions := s.subscriptions + 1
        events := s.events ++ [.subscribed s.subscriptions] } := by
    refine ⟨?_, ?_, ?_, ?_⟩
    · rw [filterMap_concat, h.numbered.subscribed, List.range_succ]
      rfl
    · simp [h.numbered.attempts, Event.answer?]
    · rw [filterMap_concat]
      simpa [Event.returned?] using h.numbered.returns
    · intro n b hn
      exact h.numbered.first n b (by simpa using hn)
  have hnew : .subscribed s.subscriptions ∉ s.events := by
    intro hmem
    have hlt : s.subscriptions ∈ s.events.filterMap Event.subscribed? :=
      List.mem_filterMap.2 ⟨_, hmem, rfl⟩
    rw [h.numbered.subscribed] at hlt
    exact absurd (List.mem_range.1 hlt) (Nat.lt_irrefl _)
  unfold Story.subscribe
  cases hout : s.cell.deferred.outcome with
  | some x =>
    have hset : since s.events ≠ [] := mt h.told.open_iff.2 (by simp [hout])
    simp only [Cell.subscribe, Deferred.subscribe_of_settled hout]
    exact Sound.tell (h.told.subscribed hset hnew) (hstopped rfl) hnumbered hout
  | none =>
    simp only [Cell.subscribe, Deferred.subscribe_of_open hout]
    exact ⟨h.told.subscribes (h.told.open_iff.1 hout) hfree, hstopped rfl, hnumbered⟩

theorem Sound.unsubscribe (h : Sound s) : Sound s.unsubscribe where
  told := h.told.unsubscribed
  stopped := h.stopped.unsubscribed
  numbered := h.numbered.quiet rfl rfl rfl []

theorem Sound.elapse (h : Sound s) : Sound s.elapse := by
  unfold Story.elapse
  split
  · exact h
  · rename_i t rest ht
    have hmem : t ∈ s.cell.timers := ht ▸ List.mem_cons_self
    exact ⟨h.told.quiet rfl rfl rfl nofun, h.stopped.elapsed hmem,
      h.numbered.quiet rfl rfl rfl [.settle t.answer]⟩

theorem Sound.reply {n : Nat} {b : Bool} {due : List Due} (h : Sound s)
    (hdue : s.due = .reply n b :: due) :
    Sound { s with due, events := s.events ++ [.returned n b] } where
  told := h.told.quiet rfl rfl rfl nofun
  stopped := h.stopped.quiet nofun nofun rfl fun _ => rfl
  numbered :=
    { subscribed := by
        rw [filterMap_concat, h.numbered.subscribed]
        exact List.append_nil _
      attempts := by simp [h.numbered.attempts, Event.answer?]
      returns := by
        have hreturns := h.numbered.returns
        rw [hdue] at hreturns
        rw [filterMap_concat]
        simpa [Event.returned?, Due.reply?] using hreturns
      first := fun m c hm => by
        have hfirst := h.numbered.first m c
        rw [hdue] at hfirst
        refine hfirst ?_
        simpa [or_assoc, eq_comm] using hm }

/-- A call that is made is no longer due. -/
theorem Sound.drop {c : Call} {due : List Due} (h : Sound s) (hdue : s.due = .call c :: due) :
    Sound { s with due } where
  told := h.told
  stopped := h.stopped
  numbered :=
    { subscribed := h.numbered.subscribed
      attempts := h.numbered.attempts
      returns := by
        have hreturns := h.numbered.returns
        rw [hdue] at hreturns
        exact hreturns
      first := fun m b hm => h.numbered.first m b (by simpa [hdue] using hm) }

theorem events_subscribe (script : Nat → List Call) (s : Story) :
    ∃ post, (s.subscribe script).events = s.events ++ .subscribed s.subscriptions :: post := by
  simp only [subscribe]
  cases (s.cell.deferred.subscribe s.subscriptions).1 with
  | none => exact ⟨_, rfl⟩
  | some a => exact ⟨_, List.append_assoc _ _ _⟩

/-- Nothing is taken back. -/
theorem events_step (script : Nat → List Call) (s : Story) :
    ∃ l, (s.step script).events = s.events ++ l := by
  unfold step
  split
  · exact ⟨[], (List.append_nil _).symm⟩
  · exact ⟨_, rfl⟩
  · rename_i c due hdue
    cases c with
    | settle a =>
      simp only [call, settle]
      cases (s.cell.deferred.settle a).listener with
      | none => exact ⟨_, rfl⟩
      | some n => exact ⟨_, List.append_assoc _ _ _⟩
    | subscribe =>
      obtain ⟨post, h⟩ := events_subscribe script { s with due }
      exact ⟨_, h⟩
    | unsubscribe => exact ⟨_, rfl⟩
    | elapse =>
      simp only [call, elapse]
      split
      · exact ⟨[], (List.append_nil _).symm⟩
      · exact ⟨_, rfl⟩

theorem Sound.step (h : Sound s) (hex : Exclusive (s.step script).events) :
    Sound (s.step script) := by
  unfold Story.step at hex ⊢
  split at hex <;> rename_i hdue
  · exact h
  · exact h.reply hdue
  · rename_i c due
    have h' := h.drop hdue
    cases c with
    | settle a => exact h'.settle a
    | subscribe =>
      obtain ⟨post, hevents⟩ := events_subscribe script { s with due }
      exact h'.subscribe (hex _ _ post hevents)
    | unsubscribe => exact h'.unsubscribe
    | elapse => exact h'.elapse

theorem Sound.run (h : Sound s) (k : Nat) (hex : Exclusive (s.run script k).events) :
    Sound (s.run script k) := by
  induction k with
  | zero => exact h
  | succ k ih =>
    obtain ⟨l, hl⟩ := events_step script (s.run script k)
    exact (ih (Exclusive.of_append (hl ▸ hex))).step hex

end Story

/-! ## The deferreds of a world -/

namespace World

/-- A deferred of a world, with the timers behind it. -/
def cell? (w : World) (d : DeferredId) : Option (Cell EffectRef) :=
  (w.deferreds.get? d).map fun deferred => ⟨deferred, w.timers.filter fun t => t.deferred = d⟩

variable {w : World} {d : DeferredId} {c : Cell EffectRef}

theorem get?_of_cell? (h : w.cell? d = some c) : w.deferreds.get? d = some c.deferred ∧
    w.timers.filter (fun t => t.deferred = d) = c.timers := by
  obtain ⟨deferred, hd, rfl⟩ := Option.map_eq_some_iff.1 h
  exact ⟨hd, rfl⟩

/-- The deferred is settled, and its listener is notified. -/
theorem settleDeferred_cell (h : w.cell? d = some c) (a : Answer) :
    let s := c.deferred.settle a
    ∃ w' : World, w'.cell? d = some (c.settle a) ∧
      w.settleDeferred d a =
        (s.accepted, s.listener.elim ⟨[], w'⟩ fun target => w'.notify target (.ofAnswer a)) := by
  obtain ⟨hd, ht⟩ := get?_of_cell? h
  refine ⟨{ w with deferreds := w.deferreds.insert d (c.deferred.settle a).deferred }, ?_, ?_⟩
  · simp [cell?, Cell.settle, ht]
  · simp only [settleDeferred, hd]
    cases (c.deferred.settle a).listener <;> rfl

/-- The call that waited is given up, and the timer is stopped. -/
theorem unsubscribe_cell (h : w.cell? d = some c) : (w.unsubscribe d).cell? d = some c.unsubscribe := by
  obtain ⟨hd, ht⟩ := get?_of_cell? h
  simp only [unsubscribe, hd, Cell.unsubscribe, ← ht]
  cases c.deferred.unsubscribe.1 with
  | none => simp [cell?, stopTimer, hd]
  | some id => simp [cell?, stopTimer, hd, List.filter_filter, Bool.and_comm]

/-- A timer that fires is over, and then it settles its deferred. -/
theorem execMoveClock_cell (h : w.cell? d = some c) {limit : Nat} {t : Timer}
    (ht : w.dueTimer? limit = some t) (hd : t.deferred = d) :
    ∃ w' : World, w'.cell? d = some (c.stop t.id) ∧
      w.execMoveClock limit = (w'.settleDeferred d t.answer).2.followedBy [.moveClock limit] := by
  obtain ⟨hget, htimers⟩ := get?_of_cell? h
  refine ⟨{ w with now := t.deadline, timers := w.timers.filter fun u => u.id ≠ t.id }, ?_, ?_⟩
  · simp [cell?, hget, Cell.stop, ← htimers, List.filter_filter, Bool.and_comm]
  · simp only [execMoveClock, ht, hd]

/-- The effect listens to the deferred; the answer of a settled one comes as a reaction. -/
theorem awaitDeferred_cell (h : w.cell? d = some c) (turn : Turn) (body : Body) (nests : List Nest)
    (id : EffectId) :
    let k : EffectRef := ⟨turn.mw, id⟩
    ∃ w' : World, w'.cell? d = some (c.subscribe k) ∧
      w.awaitDeferred turn body nests id d =
        ⟨[.begun turn body nests (.pending id)],
          (c.deferred.subscribe k).1.elim w' fun a =>
            w'.schedule turn.mw (.settle id (.ofAnswer a))⟩ := by
  obtain ⟨hd, ht⟩ := get?_of_cell? h
  have hd' : (w.suspend turn body nests id (.call d)).world.deferreds.get? d = some c.deferred := hd
  refine ⟨{ (w.suspend turn body nests id (.call d)).world with
    deferreds := w.deferreds.insert d (c.deferred.subscribe ⟨turn.mw, id⟩).2 }, ?_, ?_⟩
  · simp [cell?, Cell.subscribe, ← ht, suspend, insertWait, setEngine]
  · simp only [awaitDeferred, hd']
    cases (c.deferred.subscribe ⟨turn.mw, id⟩).1 <;> rfl

/-- A deferred that a timer is to settle starts with this timer behind it. -/
theorem addTimer_cell (hs : w.timerSupport = .available)
    (hnew : ∀ t ∈ w.timers, t.deferred ≠ w.nextDeferred) (ms : Nat) (a : Answer) :
    ∃ t, t.answer = a ∧ (w.addTimer ms a).2.cell? (w.addTimer ms a).1 = some (.spawn (some t)) := by
  refine ⟨⟨w.nextTimer, w.now + ms, w.nextDeferred, a⟩, rfl, ?_⟩
  have hnil : w.timers.filter (fun t => t.deferred = w.nextDeferred) = [] :=
    List.filter_eq_nil_iff.2 fun t ht => by simpa using hnew t ht
  simp [addTimer, hs, addDeferred, cell?, Cell.spawn, hnil]

end World

namespace Story

/--
However a deferred is used, as long as there is at most one subscriber at a time: the outcome is the
answer of the first settlement, which returns `true`; all others return `false` and change nothing.
Exactly those listeners are told of the outcome, once, who were subscribed after the settlement, or
before it and not withdrawn until then. Whoever stops listening to a deferred that is still open
stops the work behind it, which does not come to its end any more. And the deferreds of a world are
used in this way, by user code, by calls and by the clock.
-/
theorem answers_once :
    (∀ (script : Nat → List Call) (work : Option Timer) (calls : List Call) (k : Nat),
      let s := (start work calls).run script k
      Exclusive s.events →
        s.cell.deferred.outcome = s.events.findSome? Event.answer? ∧
        (∀ n b, .returned n b ∈ s.events → b = decide (n = 0)) ∧
        (s.events.filterMap Event.returned?).Nodup ∧
        (s.due = [] → ∀ n < (s.events.filterMap Event.answer?).length,
          .returned n (decide (n = 0)) ∈ s.events) ∧
        (since s.events ≠ [] → ∀ a, s.cell.settle a = s.cell ∧
          s.cell.deferred.settle a = ⟨false, none, s.cell.deferred⟩) ∧
        (∀ n, (∃ a, .heard n a ∈ s.events) ↔ Owed s.events n) ∧
        (s.events.filterMap Event.heard?).Nodup ∧
        (∀ n a, .heard n a ∈ s.events → s.cell.deferred.outcome = some a) ∧
        (since s.events = [] → s.cell.unsubscribe.timers = []) ∧
        ∀ pre post, s.events = pre ++ .elapsed :: post → .unsubscribed ∉ before pre) ∧
    ∀ (w : World),
      (∀ d c, w.cell? d = some c →
        (∀ a, ∃ w' : World, w'.cell? d = some (c.settle a) ∧
          w.settleDeferred d a = ((c.deferred.settle a).accepted,
            (c.deferred.settle a).listener.elim ⟨[], w'⟩ fun target =>
              w'.notify target (.ofAnswer a))) ∧
        (w.unsubscribe d).cell? d = some c.unsubscribe ∧
        (∀ limit t, w.dueTimer? limit = some t → t.deferred = d →
          ∃ w' : World, w'.cell? d = some (c.stop t.id) ∧
            w.execMoveClock limit = (w'.settleDeferred d t.answer).2.followedBy [.moveClock limit]) ∧
        ∀ turn body nests id, ∃ w' : World, w'.cell? d = some (c.subscribe ⟨turn.mw, id⟩) ∧
          w.awaitDeferred turn body nests id d = ⟨[.begun turn body nests (.pending id)],
            (c.deferred.subscribe ⟨turn.mw, id⟩).1.elim w' fun a =>
              w'.schedule turn.mw (.settle id (.ofAnswer a))⟩) ∧
      (w.timerSupport = .available → (∀ t ∈ w.timers, t.deferred ≠ w.nextDeferred) → ∀ ms a,
        ∃ t, t.answer = a ∧
          (w.addTimer ms a).2.cell? (w.addTimer ms a).1 = some (.spawn (some t))) := by
  refine ⟨fun script work calls k => ?_, fun w => ⟨fun d c hc => ⟨fun a => w.settleDeferred_cell hc a,
    w.unsubscribe_cell hc, fun limit t ht htd => w.execMoveClock_cell hc ht htd,
    fun turn body nests id => w.awaitDeferred_cell hc turn body nests id⟩,
    fun hs hnew ms a => w.addTimer_cell hs hnew ms a⟩⟩
  intro s hex
  have h : Sound s := (sound_start work calls).run k hex
  refine ⟨h.told.outcome, fun n b hn => h.numbered.first n b (Or.inl hn), ?_, fun hdue n hn => ?_,
    fun hset a => ?_, fun n => ?_, ?_, h.told.answer, fun hopen => ?_, h.stopped.idle⟩
  · exact (List.nodup_append.1 (h.numbered.returns.nodup_iff.2 List.nodup_range)).1
  · have hreturns := h.numbered.returns
    rw [hdue, List.filterMap_nil, List.append_nil] at hreturns
    rw [h.numbered.attempts] at hn
    obtain ⟨e, he, hen⟩ := List.mem_filterMap.1 (hreturns.mem_iff.2 (List.mem_range.2 hn))
    cases e with
    | returned m b =>
      cases hen
      rwa [← h.numbered.first n b (Or.inl he)]
    | _ => cases hen
  · obtain ⟨x, hx⟩ := Option.ne_none_iff_exists'.1 (mt h.told.open_iff.1 hset)
    have hsettle := Deferred.settle_of_settled hx a
    exact ⟨by rw [Cell.settle, hsettle], hsettle⟩
  · simpa using h.told.told n
  · simpa using h.told.once
  · exact Cell.timers_unsubscribe (h.stopped.named hopen)

theorem exclusive_concat {es : List Event} {e : Event} : Exclusive (es ++ [e]) ↔
    Exclusive es ∧ ∀ n, e = .subscribed n → ∀ m, ¬ InForce es m := by
  constructor
  · exact fun h => ⟨h.of_append, fun n he => h es n [] (by rw [he])⟩
  · rintro ⟨h, he⟩ pre n post hsplit
    rcases split_concat hsplit with ⟨post', hes⟩ | ⟨rfl, rfl⟩
    · exact h pre n post' hes
    · exact he n rfl

/-- The listener that is told fails to settle the deferred, and subscribes another one. -/
def nested : Nat → List Call
  | 1 => [.reject .noTimers, .subscribe]
  | _ => []

/-- A listener is withdrawn, and with it the work; another one comes, and then the settlement. -/
def renewed : Story :=
  start (some ⟨0, 5, 0, .ok .unit⟩) [.subscribe, .unsubscribe, .subscribe, .elapse, .resolve .unit]

theorem answers_once_renewed :
    let s := renewed.run nested 10
    Exclusive s.events ∧ s.due = [] ∧
      s.events.filterMap Event.heard? = [1, 2] ∧
      Owed s.events 1 ∧ ¬ Owed s.events 0 ∧
      .returned 0 true ∈ s.events ∧ .returned 1 false ∈ s.events := by
  have hevents : (renewed.run nested 10).events =
      [] ++ [.subscribed 0] ++ [.unsubscribed] ++ [.subscribed 1] ++ [.attempted (.ok .unit)] ++
        [.heard 1 (.ok .unit)] ++ [.attempted (.error .noTimers)] ++ [.returned 1 false] ++
        [.subscribed 2] ++ [.heard 2 (.ok .unit)] ++ [.returned 0 true] := rfl
  have hex : Exclusive (renewed.run nested 10).events := by
    rw [hevents]
    simp only [exclusive_concat, inForce_concat]
    simp [Exclusive, InForce, Holds, since, before, Event.answer?]
  obtain ⟨-, -, -, hback, -, hheard, -⟩ := answers_once.1 nested _ _ 10 hex
  have h1 : Event.heard 1 (.ok .unit) ∈ (renewed.run nested 10).events := by simp [hevents]
  have h0 : ∀ a, Event.heard 0 a ∉ (renewed.run nested 10).events := by simp [hevents]
  exact ⟨hex, rfl, rfl, (hheard 1).1 ⟨_, h1⟩, fun h => (((hheard 0).2 h).elim h0),
    hback rfl 0 (by decide), hback rfl 1 (by decide)⟩

end Story

end SagaMachine
