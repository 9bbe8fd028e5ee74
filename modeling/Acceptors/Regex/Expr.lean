import Acceptors.Text.Blank

/-! Regular expressions with named parts. A reference carries the expression that its name stands
for. Concatenations and unions hold any number of items; the empty union matches nothing. -/

namespace Acceptors.Regex

inductive Expr
  | empty
  | literal (symbol : Char)
  | reference (name : String) (target : Expr)
  | concat (items : List Expr)
  | union (items : List Expr)
  | star (body : Expr)
deriving Repr, Inhabited

namespace Expr

mutual

def beq : Expr → Expr → Bool
  | empty, empty => true
  | literal c, literal d => c == d
  | reference m a, reference n b => m == n && beq a b
  | concat as, concat bs => beqItems as bs
  | union as, union bs => beqItems as bs
  | star a, star b => beq a b
  | _, _ => false

def beqItems : List Expr → List Expr → Bool
  | [], [] => true
  | a :: as, b :: bs => beq a b && beqItems as bs
  | _, _ => false

end

mutual

theorem beq_iff : ∀ a b : Expr, beq a b = true ↔ a = b
  | empty, b => by cases b <;> simp [beq]
  | literal c, b => by cases b <;> simp [beq]
  | reference m a, b => by
    cases b with
    | reference n b => simp [beq, beq_iff a b]
    | _ => simp [beq]
  | concat as, b => by
    cases b with
    | concat bs => simp [beq, beqItems_iff as bs]
    | _ => simp [beq]
  | union as, b => by
    cases b with
    | union bs => simp [beq, beqItems_iff as bs]
    | _ => simp [beq]
  | star a, b => by
    cases b with
    | star b => simp [beq, beq_iff a b]
    | _ => simp [beq]

theorem beqItems_iff : ∀ as bs : List Expr, beqItems as bs = true ↔ as = bs
  | [], bs => by cases bs <;> simp [beqItems]
  | a :: as, bs => by
    cases bs with
    | nil => simp [beqItems]
    | cons b bs => simp [beqItems, beq_iff a b, beqItems_iff as bs]

end

instance : DecidableEq Expr := fun a b => decidable_of_iff _ (beq_iff a b)

mutual

def literals : Expr → List Char
  | empty => []
  | literal c => [c]
  | reference _ target => literals target
  | concat items => literalsOf items
  | union items => literalsOf items
  | star body => literals body

def literalsOf : List Expr → List Char
  | [] => []
  | e :: items => literals e ++ literalsOf items

end

def symbols (e : Expr) : List Char := e.literals.eraseDups

def isSpecial (c : Char) : Bool := c == '(' || c == ')' || c == '|' || c == '*' || c == '\\'

def isReference : Expr → Bool
  | reference _ _ => true
  | _ => false

def isUnion : Expr → Bool
  | union _ => true
  | _ => false

/-- Whether a star after the printed expression would take in its last item only. -/
def isLoose : Expr → Bool
  | concat _ | union _ => true
  | _ => false

def parenthesized (needed : Bool) (text : String) : String :=
  if needed then "(" ++ text ++ ")" else text

mutual

/-- The pattern of an expression. Blanks keep references apart from their neighbours. -/
def display : Expr → String
  | empty => "()"
  | literal c => if isSpecial c || Text.isBlank c then "\\" ++ c.toString else c.toString
  | reference name _ => name
  | concat items => displayConcat false items
  | union items => displayUnion items
  | star body => parenthesized body.isLoose (display body) ++ "*"

/-- The items of a concatenation; a blank goes before an item that is or follows a reference. -/
def displayConcat (blank : Bool) : List Expr → String
  | [] => ""
  | e :: items =>
    (if blank then " " else "") ++ parenthesized e.isUnion (display e) ++
      displayConcat (e.isReference || items.head?.any isReference) items

def displayUnion : List Expr → String
  | [] => ""
  | [e] => display e
  | e :: f :: items => display e ++ "|" ++ displayUnion (f :: items)

end

end Expr

end Acceptors.Regex
