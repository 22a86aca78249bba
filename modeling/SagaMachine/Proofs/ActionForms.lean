import SagaMachine.Proofs.ChannelLaws

/-!
# Actions and their JSON forms

An action is written as an object and read back from it; it is read from some other values as well,
and what was read is written as that object again. Patterns that are no predicates look at the type
alone, which an action and its JSON form have in common, so a channel serves the same takers whether
it carries actions or their JSON forms.

Main statement: `Action.forms_agree`.
-/

namespace SagaMachine

/-! ## Reading and writing -/

namespace Action

/-- A value has one of the forms that actions are read from. -/
inductive Form : Json → Action → Prop
  /-- The type is a field; the payload is another one, or it is null. Other fields do not matter. -/
  | object {fields : List (String × Json)} {kind : String} {payload : Json}
      (ht : fields.lookup "type" = some (.str kind))
      (hp : fields.lookup "payload" = some payload ∨
        fields.lookup "payload" = none ∧ payload = .null) : Form (.obj fields) ⟨kind, payload⟩
  | bare {kind : String} : Form (.arr [.str kind]) ⟨kind, .null⟩
  | pair {kind : String} {payload : Json} : Form (.arr [.str kind, payload]) ⟨kind, payload⟩

theorem ofJson?_eq_some {j : Json} {a : Action} : ofJson? j = some a ↔ Form j a := by
  constructor
  · intro h
    unfold ofJson? at h
    split at h
    · rename_i fields
      split at h
      · rename_i kind hkind
        cases h
        refine .object hkind ?_
        cases fields.lookup "payload" <;> simp
      · cases h
    · cases h
      exact .bare
    · cases h
      exact .pair
    · cases h
  · intro h
    cases h with
    | object ht hp =>
      simp only [ofJson?, ht]
      rcases hp with hp | ⟨hp, rfl⟩ <;> rw [hp] <;> rfl
    | bare | pair => rfl

/-- The fields of the JSON form: the type, and the payload unless it is null. -/
theorem field?_toJson (a : Action) (key : String) : a.toJson.field? key =
    if key = "type" then some (.str a.kind)
    else if key = "payload" ∧ a.payload ≠ .null then some a.payload
    else none := by
  obtain ⟨kind, payload⟩ := a
  have hlookup (fields : List (String × Json)) (k : String) (j : Json) :
      List.lookup key ((k, j) :: fields) = if key = k then some j else fields.lookup key := by
    rw [List.lookup_cons]
    by_cases h : key = k
    · simp [h]
    · simp [h, beq_eq_false_iff_ne.2 h]
  by_cases htype : key = "type"
  · subst htype
    cases payload <;> rfl
  · cases payload <;> simp [toJson, Json.field?, hlookup, htype]

theorem form_toJson (a : Action) : Form a.toJson a := by
  obtain ⟨kind, payload⟩ := a
  cases payload with
  | null => exact .object rfl (Or.inr ⟨rfl, rfl⟩)
  | _ => exact .object rfl (Or.inl rfl)

end Action

/-! ## Patterns -/

/-- A pattern that is no predicate of user code. -/
def Pattern.IsPlain : Pattern → Prop
  | .predicate _ => False
  | _ => True

/-- An action as its JSON form; other values stay as they are. -/
def Value.asJson : Value → Value
  | .action a => .json a.toJson
  | v => v

theorem Value.kind?_asJson (v : Value) : v.asJson.kind? = v.kind? := by
  cases v with
  | action a =>
    have htype : a.toJson.field? "type" = some (.str a.kind) := a.field?_toJson "type"
    obtain ⟨kind, payload⟩ := a
    cases payload <;> rfl
  | _ => rfl

theorem Pattern.accepts_asJson {p : Pattern} (hp : p.IsPlain) (v : Value) :
    p.accepts v.asJson = p.accepts v := by
  cases p with
  | any => rfl
  | type kind => simp only [accepts, Value.kind?_asJson]
  | oneOf kinds => simp only [accepts, Value.kind?_asJson]
  | predicate => exact hp.elim

/-! ## Channels -/

section

variable {κ : Type}

def Buffer.asJson (b : Buffer) : Buffer := { b with items := b.items.map Value.asJson }

def Channel.asJson (c : Channel κ) : Channel κ := { c with buffer := c.buffer.asJson }

def Firing.asJson (f : Firing κ) : Firing κ :=
  { f with value := f.value.map fun e => (e.1, e.2.asJson) }

/-- The ledger of a channel that carries the JSON forms of the actions. -/
def Ledger.asJson (s : Ledger κ) : Ledger κ :=
  { s with
    channel := s.channel.asJson
    values := s.values.map Value.asJson
    stock := s.stock.map fun e => (e.1, e.2.asJson)
    fired := s.fired.map Firing.asJson }

/-- The same move where JSON forms are put instead of actions. -/
def Move.asJson : Move κ → Move κ
  | .put v => .put v.asJson
  | m => m

/-- A move that brings no predicate. -/
def Move.IsPlain : Move κ → Prop
  | .take p _ => p.IsPlain
  | _ => True

/-- Nobody waits with a predicate. -/
def Ledger.IsPlain (s : Ledger κ) : Prop := ∀ t ∈ s.channel.takers, t.pattern.IsPlain

theorem Buffer.put_asJson (b : Buffer) (v : Value) :
    b.asJson.put v.asJson = (b.put v).map Buffer.asJson := by
  obtain ⟨capacity, overflow, items⟩ := b
  cases capacity with
  | none | unbounded => simp [asJson, put, Except.map]
  | bounded limit =>
    simp only [asJson, put, List.length_map]
    split
    · simp [Except.map, asJson]
    · cases overflow with
      | reject | dropNewest => rfl
      | dropOldest =>
        simp only [Except.map]
        split <;> simp [asJson]

theorem Buffer.admission_asJson (b : Buffer) : b.asJson.admission = b.admission := by
  simp only [admission, asJson, List.length_map]

theorem Buffer.removeFirst_asJson {p : Pattern} (hp : p.IsPlain) (vs : List Value) :
    removeFirst p (vs.map Value.asJson) =
      (removeFirst p vs).map fun r => (r.1.asJson, r.2.map Value.asJson) := by
  induction vs with
  | nil => rfl
  | cons v vs ih =>
    simp only [List.map_cons, removeFirst, p.accepts_asJson hp, ih]
    split
    · rfl
    · cases removeFirst p vs <;> rfl

theorem Channel.removeTaker_asJson (v : Value) {ts : List (Taker κ)}
    (hts : ∀ t ∈ ts, t.pattern.IsPlain) : removeTaker v.asJson ts = removeTaker v ts := by
  induction ts with
  | nil => rfl
  | cons t ts ih =>
    rw [List.forall_mem_cons] at hts
    simp only [removeTaker, t.pattern.accepts_asJson hts.1, ih hts.2]

theorem Channel.put_asJson {c : Channel κ} (hc : ∀ t ∈ c.takers, t.pattern.IsPlain) (v : Value) :
    c.asJson.put v.asJson = ((c.put v).1, (c.put v).2.asJson) := by
  have hremove : removeTaker v.asJson c.asJson.takers = removeTaker v c.takers :=
    removeTaker_asJson v hc
  have hput : c.asJson.buffer.put v.asJson = (c.buffer.put v).map Buffer.asJson := c.buffer.put_asJson v
  have hclosed : c.asJson.closed = c.closed := rfl
  simp only [put, hremove, hput, hclosed]
  split
  · rfl
  · cases removeTaker v c.takers with
    | some r => rfl
    | none => cases c.buffer.put v <;> rfl

theorem Channel.take_asJson (c : Channel κ) {p : Pattern} (hp : p.IsPlain) (sink : κ) :
    c.asJson.take p sink =
      { id := (c.take p sink).id
        delivery := (c.take p sink).delivery.map fun
          | .value v => .value v.asJson
          | .ended => .ended
        channel := (c.take p sink).channel.asJson } := by
  have htake : c.asJson.buffer.take p =
      (c.buffer.take p).map fun r => (r.1.asJson, r.2.asJson) := by
    simp only [Buffer.take, Channel.asJson, Buffer.asJson, Buffer.removeFirst_asJson hp]
    cases Buffer.removeFirst p c.buffer.items <;> rfl
  unfold take
  simp only [Channel.asJson] at htake ⊢
  rw [htake]
  cases c.buffer.take p with
  | some r => rfl
  | none => by_cases hc : c.closed = true <;> simp [hc]

/-- Nobody starts to wait where a value is put. -/
theorem Channel.takers_put (c : Channel κ) (v : Value) : (c.put v).2.takers ⊆ c.takers := by
  rcases c.put_cases v with ⟨-, h⟩ | ⟨-, pre, t, post, htakers, -, -, h⟩ | ⟨-, -, h⟩
  · rw [h]
    exact List.Subset.refl _
  · rw [h, htakers]
    exact ((List.sublist_cons_self t post).append_left pre).subset
  · rw [h]
    cases c.buffer.admission <;> exact List.Subset.refl _

/-- The pattern of a new taker is the only new one. -/
theorem Channel.takers_take (c : Channel κ) (p : Pattern) (sink : κ) :
    ∀ t ∈ (c.take p sink).channel.takers, t ∈ c.takers ∨ t.pattern = p := by
  rcases c.take_meets p sink with ⟨_, _, _, -, -, -, h⟩ | ⟨-, ⟨-, h⟩ | ⟨-, h⟩⟩
  · rw [h]
    exact fun t ht => Or.inl ht
  · rw [h]
    exact fun t ht => Or.inl ht
  · rw [h]
    intro t ht
    exact (List.mem_append.1 ht).imp_right fun ht => congrArg Taker.pattern (List.mem_singleton.1 ht)

namespace Ledger

variable {s : Ledger κ}

theorem put_asJson (hs : s.IsPlain) (v : Value) : s.asJson.put v.asJson = (s.put v).asJson := by
  have hput : s.asJson.channel.put v.asJson = ((s.channel.put v).1, (s.channel.put v).2.asJson) :=
    Channel.put_asJson hs v
  have hadmission : s.asJson.channel.buffer.admission = s.channel.buffer.admission :=
    s.channel.buffer.admission_asJson
  simp only [put, hput, hadmission]
  cases (s.channel.put v).1 with
  | ignored => simp [asJson, mark]
  | delivered t => simp [asJson, mark, Firing.asJson]
  | buffered r =>
    cases s.channel.buffer.admission with
    | stores | refuses | drops => simp [asJson, mark]
    | evicts => cases hstock : s.stock <;> simp [asJson, mark, hstock]

theorem find?_asJson {p : Pattern} (hp : p.IsPlain) (es : List (Nat × Value)) :
    (es.map fun e => (e.1, e.2.asJson)).find? (fun e => p.accepts e.2) =
      (es.find? fun e => p.accepts e.2).map fun e => (e.1, e.2.asJson) := by
  rw [List.find?_map]
  simp only [Function.comp_def, p.accepts_asJson hp]

theorem eraseP_asJson {p : Pattern} (hp : p.IsPlain) (es : List (Nat × Value)) :
    (es.map fun e => (e.1, e.2.asJson)).eraseP (fun e => p.accepts e.2) =
      (es.eraseP fun e => p.accepts e.2).map fun e => (e.1, e.2.asJson) := by
  rw [List.eraseP_map]
  simp only [Function.comp_def, p.accepts_asJson hp]

theorem take_asJson (s : Ledger κ) {p : Pattern} (hp : p.IsPlain) (sink : κ) :
    s.asJson.take p sink = (s.take p sink).asJson := by
  have htake := s.channel.take_asJson hp sink
  have hfind : s.asJson.stock.find? (fun e => p.accepts e.2) =
      (s.stock.find? fun e => p.accepts e.2).map fun e => (e.1, e.2.asJson) := find?_asJson hp s.stock
  have herase : s.asJson.stock.eraseP (fun e => p.accepts e.2) =
      (s.stock.eraseP fun e => p.accepts e.2).map fun e => (e.1, e.2.asJson) := eraseP_asJson hp s.stock
  have hchannel : s.asJson.channel = s.channel.asJson := rfl
  simp only [take, hchannel, htake, hfind, herase]
  cases (s.channel.take p sink).delivery with
  | none => rfl
  | some d =>
    cases d with
    | ended => simp [asJson, Firing.asJson]
    | value v =>
      cases s.stock.find? (fun e => p.accepts e.2) with
      | none => rfl
      | some e => simp [asJson, mark, Firing.asJson]

/-- A move comes to the same with the JSON forms. -/
theorem step_asJson (hs : s.IsPlain) {m : Move κ} (hm : m.IsPlain) :
    s.asJson.step m.asJson = (s.step m).asJson := by
  cases m with
  | put v => exact put_asJson hs v
  | take p sink => exact take_asJson s hm sink
  | cancel id => rfl
  | close =>
    by_cases hc : s.channel.closed = true <;>
      simp [Move.asJson, step, close, asJson, Channel.close, Channel.asJson, hc]
  | tell =>
    cases hdue : s.due with
    | nil => simp [Move.asJson, step, tell, asJson, hdue]
    | cons t rest => simp [Move.asJson, step, tell, asJson, hdue, Firing.asJson]

theorem channel_put (s : Ledger κ) (v : Value) : (s.put v).channel = (s.channel.put v).2 := by
  unfold put
  simp only
  split
  · rfl
  · rfl
  · split
    · rfl
    · cases s.stock <;> rfl
    · rfl
    · rfl

theorem channel_take (s : Ledger κ) (p : Pattern) (sink : κ) :
    (s.take p sink).channel = (s.channel.take p sink).channel := by
  unfold take
  simp only
  split
  · rfl
  · rfl
  · split <;> rfl

theorem step_isPlain (hs : s.IsPlain) {m : Move κ} (hm : m.IsPlain) : (s.step m).IsPlain := by
  intro t ht
  cases m with
  | put v =>
    rw [step, channel_put] at ht
    exact hs t (s.channel.takers_put v ht)
  | take p sink =>
    rw [step, channel_take] at ht
    rcases s.channel.takers_take p sink t ht with ht | rfl
    · exact hs t ht
    · exact hm
  | cancel id => exact hs t (List.mem_filter.1 ht).1
  | close =>
    simp only [step, close, Channel.close] at ht
    split at ht
    · exact hs t ht
    · cases ht
  | tell =>
    simp only [step, tell] at ht
    split at ht <;> exact hs t ht

theorem run_asJson (hs : s.IsPlain) {ms : List (Move κ)} (hms : ∀ m ∈ ms, m.IsPlain) :
    s.asJson.run (ms.map Move.asJson) = (s.run ms).asJson := by
  induction ms generalizing s with
  | nil => rfl
  | cons m ms ih =>
    rw [List.forall_mem_cons] at hms
    have h := ih (step_isPlain hs hms.1) hms.2
    rw [← step_asJson hs hms.1] at h
    exact h

end Ledger

/--
Actions and their JSON forms agree. What an action is written as is read as this action, with the
type as a field and the payload as another one unless it is null. Reading succeeds for an object
with a type that is a string and for an array of a string and at most one more value; of an object
only the two fields matter. What was read is written in one way, which reading and writing once more
leaves as it is. And a pattern that is no predicate accepts an action if it accepts its JSON form,
so a channel that carries the one serves the same takers, each with the value of the same put, as
a channel that carries the other.
-/
theorem Action.forms_agree :
    (∀ a : Action, ofJson? a.toJson = some a ∧ ∀ key, a.toJson.field? key =
      if key = "type" then some (.str a.kind)
      else if key = "payload" ∧ a.payload ≠ .null then some a.payload else none) ∧
    (∀ j, (∃ a, ofJson? j = some a) ↔
      (∃ fields kind, j = .obj fields ∧ j.field? "type" = some (.str kind)) ∨
        (∃ kind, j = .arr [.str kind]) ∨ ∃ kind payload, j = .arr [.str kind, payload]) ∧
    (∀ j a, ofJson? j = some a ↔ Form j a) ∧
    (∀ j a, ofJson? j = some a → ofJson? a.toJson = some a ∧
      ∀ a', ofJson? a.toJson = some a' → a'.toJson = a.toJson) ∧
    (∀ p : Pattern, p.IsPlain → ∀ a, p.accepts (.action a) = p.accepts (.json a.toJson)) ∧
    ∀ (κ : Type) (capacity : Capacity) (overflow : Overflow) (ms : List (Move κ)),
      (∀ m ∈ ms, m.IsPlain) →
      let s := (Ledger.start { capacity, overflow }).run ms
      let s' := (Ledger.start { capacity, overflow }).run (ms.map Move.asJson)
      s'.fired.map (fun f => (f.taker, f.value.map Prod.fst)) =
          s.fired.map (fun f => (f.taker, f.value.map Prod.fst)) ∧
        s'.channel.takers = s.channel.takers ∧
        s'.channel.buffer.items = s.channel.buffer.items.map Value.asJson := by
  have hback : ∀ a : Action, ofJson? a.toJson = some a := fun a => ofJson?_eq_some.2 a.form_toJson
  refine ⟨fun a => ⟨hback a, a.field?_toJson⟩, fun j => ?_, fun j a => ofJson?_eq_some,
    fun j a _ => ⟨hback a, fun a' ha' => ?_⟩, fun p hp a => (p.accepts_asJson hp (.action a)).symm,
    fun κ capacity overflow ms hms => ?_⟩
  · simp only [ofJson?_eq_some]
    constructor
    · rintro ⟨a, h⟩
      cases h with
      | object ht => exact Or.inl ⟨_, _, rfl, ht⟩
      | bare => exact Or.inr (Or.inl ⟨_, rfl⟩)
      | pair => exact Or.inr (Or.inr ⟨_, _, rfl⟩)
    · rintro (⟨fields, kind, rfl, ht⟩ | ⟨kind, rfl⟩ | ⟨kind, payload, rfl⟩)
      · cases hp : fields.lookup "payload" with
        | none => exact ⟨_, .object ht (Or.inr ⟨hp, rfl⟩)⟩
        | some payload => exact ⟨_, .object ht (Or.inl hp)⟩
      · exact ⟨_, .bare⟩
      · exact ⟨_, .pair⟩
  · cases (hback a).symm.trans ha'
    rfl
  · have hplain : (Ledger.start { capacity, overflow } : Ledger κ).IsPlain := fun t ht => by cases ht
    have hrun := Ledger.run_asJson hplain hms
    have hstart : (Ledger.start { capacity, overflow } : Ledger κ).asJson =
        Ledger.start { capacity, overflow } := rfl
    rw [hstart] at hrun
    simp only [hrun]
    refine ⟨?_, rfl, rfl⟩
    simp only [Ledger.asJson, List.map_map]
    congr 1
    funext f
    cases hv : f.value <;> simp [Firing.asJson, hv]

/-- An order for tea. -/
def order : Action := ⟨"order", .str "tea"⟩

/-- Somebody waits for an order; two come in, and then somebody takes anything. -/
def orders : List (Move Nat) :=
  [.take (.type "order") 0, .put (.action order), .put (.action order), .take .any 1]

theorem Action.forms_agree_order :
    ofJson? (.obj [("note", .null), ("payload", .str "tea"), ("type", .str "order")]) = some order ∧
    ofJson? order.toJson = some order ∧
    (Pattern.type "order").accepts (.json order.toJson) = true ∧
    ((Ledger.start ⟨.bounded 1, .reject, []⟩).run (orders.map Move.asJson)).fired.map
      (fun f => (f.taker, f.value.map Prod.fst)) =
        [(⟨1, .type "order", 0⟩, some 0), (⟨2, .any, 1⟩, some 1)] := by
  obtain ⟨-, -, hread, hnormal, haccepts, hserves⟩ := forms_agree
  have hform : Form (.obj [("note", .null), ("payload", .str "tea"), ("type", .str "order")]) order :=
    .object rfl (Or.inl rfl)
  have hplain : ∀ m ∈ orders, m.IsPlain := by
    simp only [orders, List.mem_cons, List.not_mem_nil, or_false]
    rintro m (rfl | rfl | rfl | rfl) <;> trivial
  refine ⟨(hread _ _).2 hform, (hnormal _ _ ((hread _ _).2 hform)).1, ?_, ?_⟩
  · rw [← haccepts (.type "order") trivial order]
    decide
  · rw [(hserves Nat _ _ orders hplain).1]
    rfl

end

end SagaMachine
