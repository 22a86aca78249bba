import SagaMachine.Json.Number
import SagaMachine.Text.Layout
import SagaMachine.Text.Quoted

/-!
# JSON values

Payloads, host state and the settings of a scenario are JSON values. The fields of
an object are kept in increasing order of their names, each name once
(`Json.ofFields`), so two objects with the same fields are the same value.
-/

namespace SagaMachine

/-- A JSON value. -/
inductive Json where
  | null
  | bool (b : Bool)
  | num (n : Number)
  | str (s : String)
  | arr (items : List Json)
  | obj (fields : List (String × Json))
deriving Repr

namespace Json

instance : Inhabited Json := ⟨null⟩

mutual

/-- Whether two values are one and the same. -/
def decEq : (a b : Json) → Decidable (a = b)
  | null, null => isTrue rfl
  | bool a, bool b => if h : a = b then isTrue (h ▸ rfl) else isFalse (fun e => h (bool.inj e))
  | num a, num b => if h : a = b then isTrue (h ▸ rfl) else isFalse (fun e => h (num.inj e))
  | str a, str b => if h : a = b then isTrue (h ▸ rfl) else isFalse (fun e => h (str.inj e))
  | arr a, arr b =>
    match decEqList a b with
    | isTrue h => isTrue (h ▸ rfl)
    | isFalse h => isFalse (fun e => h (arr.inj e))
  | obj a, obj b =>
    match decEqFields a b with
    | isTrue h => isTrue (h ▸ rfl)
    | isFalse h => isFalse (fun e => h (obj.inj e))
  | null, bool _ | null, num _ | null, str _ | null, arr _ | null, obj _
  | bool _, null | bool _, num _ | bool _, str _ | bool _, arr _ | bool _, obj _
  | num _, null | num _, bool _ | num _, str _ | num _, arr _ | num _, obj _
  | str _, null | str _, bool _ | str _, num _ | str _, arr _ | str _, obj _
  | arr _, null | arr _, bool _ | arr _, num _ | arr _, str _ | arr _, obj _
  | obj _, null | obj _, bool _ | obj _, num _ | obj _, str _ | obj _, arr _ =>
    isFalse (fun e => by cases e)

/-- Whether two lists of values are the same. -/
def decEqList : (a b : List Json) → Decidable (a = b)
  | [], [] => isTrue rfl
  | [], _ :: _ => isFalse (fun e => by cases e)
  | _ :: _, [] => isFalse (fun e => by cases e)
  | x :: xs, y :: ys =>
    match decEq x y, decEqList xs ys with
    | isTrue h, isTrue t => isTrue (h ▸ t ▸ rfl)
    | isFalse h, _ => isFalse (fun e => h (List.cons.inj e).1)
    | _, isFalse t => isFalse (fun e => t (List.cons.inj e).2)

/-- Whether two lists of named values are the same. -/
def decEqFields : (a b : List (String × Json)) → Decidable (a = b)
  | [], [] => isTrue rfl
  | [], _ :: _ => isFalse (fun e => by cases e)
  | _ :: _, [] => isFalse (fun e => by cases e)
  | (k, x) :: xs, (l, y) :: ys =>
    if n : k = l then
      match decEq x y, decEqFields xs ys with
      | isTrue h, isTrue t => isTrue (n ▸ h ▸ t ▸ rfl)
      | isFalse h, _ => isFalse (fun e => h (Prod.mk.inj (List.cons.inj e).1).2)
      | _, isFalse t => isFalse (fun e => t (List.cons.inj e).2)
    else isFalse (fun e => n (Prod.mk.inj (List.cons.inj e).1).1)

end

instance : DecidableEq Json := decEq

/-- Insert a field at its place in the order of names; a present name is replaced. -/
def insertField (k : String) (v : Json) : List (String × Json) → List (String × Json)
  | [] => [(k, v)]
  | (l, w) :: rest =>
    if k < l then (k, v) :: (l, w) :: rest
    else if k = l then (k, v) :: rest
    else (l, w) :: insertField k v rest

/-- The object with the given fields; of two fields with one name the later wins. -/
def ofFields (fields : List (String × Json)) : Json :=
  obj (fields.foldl (fun acc f => insertField f.1 f.2 acc) [])

/-- The value of a field; a value that is no object has no fields. -/
def field? (j : Json) (k : String) : Option Json :=
  match j with
  | obj fields => fields.lookup k
  | _ => none

/-- The text of a string value. -/
def str? : Json → Option String
  | str s => some s
  | _ => none

/-- The value of a signed 64-bit integer. -/
def signed? : Json → Option Int
  | num n => n.toSigned?
  | _ => none

/-- An integer as a JSON value. -/
def ofInt (n : Int) : Json := num (.int n)

/-- A natural number as a JSON value. -/
def ofNat (n : Nat) : Json := num (.int n)

mutual

/-- Equality as a predicate sees it: the two decimal zeros count as one. -/
def sameAs : Json → Json → Bool
  | null, null => true
  | bool a, bool b => a == b
  | num a, num b => a.sameAs b
  | str a, str b => a == b
  | arr a, arr b => sameList a b
  | obj a, obj b => sameFields a b
  | _, _ => false

/-- Lists are equal member by member. -/
def sameList : List Json → List Json → Bool
  | [], [] => true
  | x :: xs, y :: ys => sameAs x y && sameList xs ys
  | _, _ => false

/-- Objects are equal field by field. -/
def sameFields : List (String × Json) → List (String × Json) → Bool
  | [], [] => true
  | (k, x) :: xs, (l, y) :: ys => k == l && sameAs x y && sameFields xs ys
  | _, _ => false

end

mutual

/-- The value as reports show it, with the name of its kind. -/
def inspect : Json → String
  | null => "Null"
  | bool b => Text.showTuple "Bool" [Text.showBool b]
  | num n => Text.showTuple "Number" [n.toText]
  | str s => Text.showTuple "String" [Text.quote s]
  | arr items => "Array " ++ Text.showList (inspectList items)
  | obj fields => "Object " ++ Text.showMap (inspectFields fields)

/-- The members of an array as reports show them. -/
def inspectList : List Json → List String
  | [] => []
  | x :: xs => inspect x :: inspectList xs

/-- The fields of an object as reports show them. -/
def inspectFields : List (String × Json) → List (String × String)
  | [] => []
  | (k, x) :: xs => (Text.quote k, inspect x) :: inspectFields xs

end

end Json

end SagaMachine
