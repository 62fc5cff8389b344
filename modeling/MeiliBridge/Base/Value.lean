import MeiliBridge.Base.Number

/-!
# JSON values

`serde_json::Value`, and the string-keyed maps of values. A map is kept as the list of its
entries in key order, which is how `serde_json::Map` keeps it; a `HashMap<String, Value>` of the
code is kept the same way, so that collecting one into the other changes nothing and two equal
maps are the same list.
-/

set_option autoImplicit false

namespace MeiliBridge

inductive Value where
  | null
  | bool (b : Bool)
  | number (n : Number)
  | string (s : String)
  | array (xs : List Value)
  | object (fields : List (String × Value))

/-- The entries of a map, in key order. -/
abbrev Fields := List (String × Value)

namespace Value

mutual

/-- `PartialEq` of values -/
def beq : Value → Value → Bool
  | .null, .null => true
  | .bool a, .bool b => a == b
  | .number a, .number b => a == b
  | .string a, .string b => a == b
  | .array xs, .array ys => beqList xs ys
  | .object fs, .object gs => beqFields fs gs
  | _, _ => false

def beqList : List Value → List Value → Bool
  | [], [] => true
  | x :: xs, y :: ys => beq x y && beqList xs ys
  | _, _ => false

def beqFields : List (String × Value) → List (String × Value) → Bool
  | [], [] => true
  | (k, x) :: fs, (k', y) :: gs => k == k' && beq x y && beqFields fs gs
  | _, _ => false

end

mutual

theorem eq_of_beq : ∀ {a b : Value}, beq a b = true → a = b
  | .null, b, h => by cases b <;> simp_all [beq]
  | .bool _, b, h => by cases b <;> simp_all [beq]
  | .number _, b, h => by cases b <;> simp_all [beq]
  | .string _, b, h => by cases b <;> simp_all [beq]
  | .array xs, b, h => by
    cases b with
    | array ys =>
      simp only [beq] at h
      rw [eq_of_beqList h]
    | _ => simp [beq] at h
  | .object fs, b, h => by
    cases b with
    | object gs =>
      simp only [beq] at h
      rw [eq_of_beqFields h]
    | _ => simp [beq] at h

theorem eq_of_beqList : ∀ {xs ys : List Value}, beqList xs ys = true → xs = ys
  | [], ys, h => by cases ys <;> simp_all [beqList]
  | x :: xs, ys, h => by
    cases ys with
    | nil => simp [beqList] at h
    | cons y ys =>
      simp only [beqList, Bool.and_eq_true] at h
      rw [eq_of_beq h.1, eq_of_beqList h.2]

theorem eq_of_beqFields : ∀ {fs gs : List (String × Value)}, beqFields fs gs = true → fs = gs
  | [], gs, h => by cases gs <;> simp_all [beqFields]
  | (k, x) :: fs, gs, h => by
    cases gs with
    | nil => simp [beqFields] at h
    | cons g gs =>
      obtain ⟨k', y⟩ := g
      simp only [beqFields, Bool.and_eq_true, beq_iff_eq] at h
      rw [h.1.1, eq_of_beq h.1.2, eq_of_beqFields h.2]

end

mutual

theorem beq_self : ∀ a : Value, beq a a = true
  | .null | .bool _ | .number _ | .string _ => by simp [beq]
  | .array xs => by simpa [beq] using beqList_self xs
  | .object fs => by simpa [beq] using beqFields_self fs

theorem beqList_self : ∀ xs : List Value, beqList xs xs = true
  | [] => rfl
  | x :: xs => by simp [beqList, beq_self x, beqList_self xs]

theorem beqFields_self : ∀ fs : List (String × Value), beqFields fs fs = true
  | [] => rfl
  | (_, x) :: fs => by simp [beqFields, beq_self x, beqFields_self fs]

end

instance : DecidableEq Value := fun a b =>
  decidable_of_iff (beq a b = true) ⟨eq_of_beq, fun h => h ▸ beq_self a⟩

instance : Inhabited Value := ⟨.null⟩

def asStr : Value → Option String
  | .string s => some s
  | _ => none

def asI64 : Value → Option Int
  | .number n => n.asI64
  | _ => none

def asBool : Value → Option Bool
  | .bool b => some b
  | _ => none

def asObject : Value → Option Fields
  | .object fs => some fs
  | _ => none

/-- `Value::get` with a string key -/
def get (v : Value) (key : String) : Option Value :=
  match v with
  | .object fs => fs.lookup key
  | _ => none

/-! ## Printing -/

def hexDigit (n : Nat) : Char :=
  Char.ofNat (if n < 10 then 48 + n else 87 + n)

/-- One character of a JSON string literal. -/
def escapeChar (c : Char) : List Char :=
  if c = '"' then ['\\', '"']
  else if c = '\\' then ['\\', '\\']
  else if c.toNat = 8 then ['\\', 'b']
  else if c.toNat = 9 then ['\\', 't']
  else if c.toNat = 10 then ['\\', 'n']
  else if c.toNat = 12 then ['\\', 'f']
  else if c.toNat = 13 then ['\\', 'r']
  else if c.toNat < 32 then ['\\', 'u', '0', '0', hexDigit (c.toNat / 16), hexDigit (c.toNat % 16)]
  else [c]

def quote (s : String) : String :=
  "\"" ++ String.ofList (s.toList.flatMap escapeChar) ++ "\""

mutual

/-- `Value::to_string`: compact JSON -/
def display : Value → String
  | .null => "null"
  | .bool b => if b then "true" else "false"
  | .number n => n.display
  | .string s => quote s
  | .array xs => "[" ++ Text.join (displayList xs) "," ++ "]"
  | .object fs => "\x7b" ++ Text.join (displayFields fs) "," ++ "\x7d"

def displayList : List Value → List String
  | [] => []
  | x :: xs => display x :: displayList xs

def displayFields : List (String × Value) → List String
  | [] => []
  | (k, v) :: fs => (quote k ++ ":" ++ display v) :: displayFields fs

end

/-- The walk along a dotted path that `extract_path` and `extract_nested` make: a key into an
object, an index into an array, and nothing anywhere else. -/
def walk : Value → List String → Option Value
  | current, [] => some current
  | .object fs, part :: parts => (fs.lookup part).bind (walk · parts)
  | .array xs, part :: parts =>
    (Text.parseU64 10 part).bind fun i => xs[i]?.bind (walk · parts)
  | _, _ :: _ => none

end Value

namespace Fields

/-- `get` -/
def get (data : Fields) (key : String) : Option Value := data.lookup key

/-- `insert`: a present key keeps its place, a new one goes where the order puts it. -/
def insert (key : String) (v : Value) : Fields → Fields
  | [] => [(key, v)]
  | (k, x) :: rest =>
    if key = k then (key, v) :: rest
    else if key < k then (key, v) :: (k, x) :: rest
    else (k, x) :: insert key v rest

/-- `remove` -/
def remove (key : String) (data : Fields) : Fields := data.filter (·.1 ≠ key)

/-- `contains_key` -/
def containsKey (data : Fields) (key : String) : Bool := (data.get key).isSome

/-- The value that was put last is there, and nothing else changes. -/
theorem get_insert (key key' : String) (v : Value) (data : Fields) :
    (data.insert key v).get key' = if key' = key then some v else data.get key' := by
  induction data with
  | nil =>
    by_cases h : key' = key
    · simp [insert, get, h]
    · simp [insert, get, h, List.lookup_cons, beq_false_of_ne h]
  | cons entry rest ih =>
    obtain ⟨k, x⟩ := entry
    simp only [get] at ih
    rw [insert]
    split
    · next heq =>
      subst heq
      by_cases h : key' = key
      · simp [get, h]
      · simp [get, h, List.lookup_cons, beq_false_of_ne h]
    · next hne =>
      split
      · by_cases h : key' = key
        · simp [get, h]
        · simp [get, h, List.lookup_cons, beq_false_of_ne h]
      · by_cases hk : key' = k
        · have hkey : key' ≠ key := fun h => hne (h ▸ hk)
          simp [get, hk, hk ▸ hkey]
        · simpa [get, List.lookup_cons, beq_false_of_ne hk] using ih

/-- The values that are put one after the other. -/
def insertAll (data entries : Fields) : Fields :=
  entries.foldl (fun data entry => data.insert entry.1 entry.2) data

theorem get_insertAll_of_not_mem {entries : Fields} {key : String}
    (h : key ∉ entries.map Prod.fst) (data : Fields) :
    (data.insertAll entries).get key = data.get key := by
  induction entries generalizing data with
  | nil => rfl
  | cons entry entries ih =>
    rw [List.map_cons, List.mem_cons, not_or] at h
    have hrest := ih h.2 (data.insert entry.1 entry.2)
    rw [get_insert, if_neg h.1] at hrest
    exact hrest

theorem insertAll_append (data entries entries' : Fields) :
    data.insertAll (entries ++ entries') = (data.insertAll entries).insertAll entries' :=
  List.foldl_append

/-- What is found was put there or was there before. -/
theorem mem_of_get_insertAll {entries data : Fields} {key : String} {v : Value}
    (h : (data.insertAll entries).get key = some v) :
    (key, v) ∈ entries ∨ data.get key = some v := by
  induction entries generalizing data with
  | nil => exact Or.inr h
  | cons entry entries ih =>
    rcases ih h with hmem | hget
    · exact Or.inl (List.mem_cons_of_mem entry hmem)
    · rw [get_insert] at hget
      split at hget
      · next hkey =>
        obtain rfl := Option.some.inj hget
        exact Or.inl (hkey ▸ List.mem_cons_self)
      · exact Or.inr hget

/-- Among different keys each keeps its value. -/
theorem get_insertAll_of_mem {entries : Fields} {key : String} {v : Value}
    (hnodup : (entries.map Prod.fst).Nodup) (h : (key, v) ∈ entries) (data : Fields) :
    (data.insertAll entries).get key = some v := by
  induction entries generalizing data with
  | nil => cases h
  | cons entry entries ih =>
    rw [List.map_cons, List.nodup_cons] at hnodup
    rcases List.mem_cons.mp h with heq | h
    · subst heq
      have hrest := get_insertAll_of_not_mem hnodup.1 (data.insert key v)
      rw [get_insert, if_pos rfl] at hrest
      exact hrest
    · exact ih hnodup.2 h _

end Fields

end MeiliBridge
