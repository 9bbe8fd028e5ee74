import Acceptors.Failure

/-! What a document holds: scalars, lists and mappings, each with the place where it begins. -/

namespace Acceptors

mutual

inductive Node
  /-- A key without a value, a list item without content, or an empty document. -/
  | null (location : Location)
  | scalar (location : Location) (text : String)
  | list (location : Location) (items : List Node)
  | mapping (location : Location) (entries : List Entry)

inductive Entry
  | mk (key : String) (location : Location) (value : Node)

end

instance : Inhabited Node := ⟨.null .start⟩

namespace Node

mutual

def beq : Node → Node → Bool
  | null l, null l' => l == l'
  | scalar l text, scalar l' text' => l == l' && text == text'
  | list l items, list l' items' => l == l' && beqItems items items'
  | mapping l entries, mapping l' entries' => l == l' && beqEntries entries entries'
  | _, _ => false

def beqItems : List Node → List Node → Bool
  | [], [] => true
  | n :: items, n' :: items' => beq n n' && beqItems items items'
  | _, _ => false

def beqEntries : List Entry → List Entry → Bool
  | [], [] => true
  | .mk key l value :: entries, .mk key' l' value' :: entries' =>
    key == key' && l == l' && beq value value' && beqEntries entries entries'
  | _, _ => false

end

mutual

theorem beq_iff : ∀ m n : Node, beq m n = true ↔ m = n
  | null _, n => by cases n <;> simp [beq]
  | scalar _ _, n => by cases n <;> simp [beq]
  | list _ items, n => by
    cases n with
    | list _ items' => simp [beq, beqItems_iff items items']
    | _ => simp [beq]
  | mapping _ entries, n => by
    cases n with
    | mapping _ entries' => simp [beq, beqEntries_iff entries entries']
    | _ => simp [beq]

theorem beqItems_iff : ∀ items items' : List Node, beqItems items items' = true ↔ items = items'
  | [], items' => by cases items' <;> simp [beqItems]
  | n :: items, items' => by
    cases items' with
    | nil => simp [beqItems]
    | cons n' items' => simp [beqItems, beq_iff n n', beqItems_iff items items']

theorem beqEntries_iff :
    ∀ entries entries' : List Entry, beqEntries entries entries' = true ↔ entries = entries'
  | [], entries' => by cases entries' <;> simp [beqEntries]
  | .mk _ _ value :: entries, entries' => by
    cases entries' with
    | nil => simp [beqEntries]
    | cons e entries' =>
      obtain ⟨key', l', value'⟩ := e
      simp [beqEntries, beq_iff value value', beqEntries_iff entries entries', and_assoc]

end

instance : DecidableEq Node := fun m n => decidable_of_iff _ (beq_iff m n)

end Node

namespace Entry

def key : Entry → String
  | mk key _ _ => key

def location : Entry → Location
  | mk _ location _ => location

def value : Entry → Node
  | mk _ _ value => value

end Entry

namespace Node

def location : Node → Location
  | null l => l
  | scalar l _ => l
  | list l _ => l
  | mapping l _ => l

def shape : Node → Shape
  | null _ => .nothing
  | scalar _ _ => .scalar
  | list _ _ => .list
  | mapping _ _ => .mapping

def isNull : Node → Bool
  | null _ => true
  | _ => false

def error (n : Node) (field : String) (reason : Reason) : ParseError :=
  ⟨reason, some field, some n.location⟩

def asMapping (n : Node) (field : String) : Except ParseError (List Entry) :=
  match n with
  | mapping _ entries => .ok entries
  | n => .error (n.error field (.wrongShape .mapping n.shape))

def asScalar (n : Node) (field : String) : Except ParseError String :=
  match n with
  | scalar _ text => .ok text
  | n => .error (n.error field (.wrongShape .scalar n.shape))

/-- The items of a list. A lone scalar is a list of one item and nothing is the empty list. -/
def asList (n : Node) (field : String) : Except ParseError (List Node) :=
  match n with
  | null _ => .ok []
  | scalar l text => .ok [scalar l text]
  | list _ items => .ok items
  | mapping _ _ => .error (n.error field (.wrongShape .list .mapping))

end Node

def Entry.duplicate (key : String) (location : Location) : ParseError :=
  (ParseError.ofReason (.duplicateKey key)).withLocation location

def Entry.add (entries : List Entry) (e : Entry) : Except ParseError (List Entry) :=
  if entries.any fun other => other.key == e.key then .error (Entry.duplicate e.key e.location)
  else .ok (e :: entries)

mutual

/-- Checks that the keys of each mapping in a node are distinct, the inner mappings first. -/
def Node.checkKeys : Node → Except ParseError Unit
  | .null _ => .ok ()
  | .scalar _ _ => .ok ()
  | .list _ items => checkItems items
  | .mapping _ entries => checkEntries [] entries

def checkItems : List Node → Except ParseError Unit
  | [] => .ok ()
  | n :: items => do
    n.checkKeys
    checkItems items

def checkEntries (earlier : List Entry) : List Entry → Except ParseError Unit
  | [] => .ok ()
  | .mk key l value :: rest => do
    value.checkKeys
    let earlier ← Entry.add earlier (.mk key l value)
    checkEntries earlier rest

end

end Acceptors
