import Acceptors.Automaton

/-! A few automata to try things out with, one of each kind. -/

namespace Acceptors

structure Sample where
  name : String
  formalism : Formalism
  source : String
deriving DecidableEq, Repr

namespace Sample

def ofLines (lines : List String) : String := String.join (lines.map fun l => l ++ "\n")

def noTripleZero : Sample where
  name := "no-triple-zero"
  formalism := .dfa
  source := ofLines [
    "# Binary strings that do not end in 000.",
    "# Each state remembers how many trailing zeros have been read.",
    "states: [q, q0, q00, q000]",
    "input_alphabet: [0, 1]",
    "start_state: q",
    "accept_states: [q, q0, q00]",
    "delta:",
    "  q: \x7b0: q0, 1: q\x7d",
    "  q0: \x7b0: q00, 1: q\x7d",
    "  q00: \x7b0: q000, 1: q\x7d",
    "  q000: \x7b0: q000, 1: q\x7d"]

def thirdToLastZero : Sample where
  name := "third-to-last-zero"
  formalism := .nfa
  source := ofLines [
    "# Binary strings whose third symbol from the end is 0.",
    "# The start state guesses where the last three symbols begin.",
    "states: [s, a, b, c]",
    "input_alphabet: [0, 1]",
    "start_state: s",
    "accept_states: [c]",
    "delta:",
    "  s:",
    "    0: [s, a]",
    "    1: [s]",
    "  a:",
    "    0: [b]",
    "    1: [b]",
    "  b:",
    "    0: [c]",
    "    1: [c]"]

def contains010 : Sample where
  name := "contains-010"
  formalism := .regex
  source := ofLines [
    "# Binary strings that contain 010 as a substring.",
    "B = (0|1)*",
    "B 010 B"]

def balancedParens : Sample where
  name := "balanced-parens"
  formalism := .cfg
  source := ofLines [
    "# Balanced parentheses, including the empty string.",
    "S: ['(S)', SS, '']"]

def palindrome : Sample where
  name := "palindrome"
  formalism := .tm
  source := ofLines [
    "# Binary palindromes. The machine erases the first symbol, remembers it,",
    "# runs to the other end and checks that the last symbol matches.",
    "states: [q0, q1, q2, q3, q4, q5, qA, qR]",
    "input_alphabet: [0, 1]",
    "start_state: q0",
    "accept_state: qA",
    "reject_state: qR",
    "delta:",
    "  q0:",
    "    0: [q1, _, R]",
    "    1: [q2, _, R]",
    "    _: [qA, _, S]",
    "  q1:",
    "    0: [q1, 0, R]",
    "    1: [q1, 1, R]",
    "    _: [q3, _, L]",
    "  q2:",
    "    0: [q2, 0, R]",
    "    1: [q2, 1, R]",
    "    _: [q4, _, L]",
    "  q3:",
    "    0: [q5, _, L]",
    "    1: [qR, 1, S]",
    "    _: [qA, _, S]",
    "  q4:",
    "    0: [qR, 0, S]",
    "    1: [q5, _, L]",
    "    _: [qA, _, S]",
    "  q5:",
    "    0: [q5, 0, L]",
    "    1: [q5, 1, L]",
    "    _: [q0, _, R]"]

def all : List Sample := [noTripleZero, thirdToLastZero, contains010, balancedParens, palindrome]

def find? (name : String) : Option Sample := all.find? fun s => s.name == name

def names : List String := all.map name

def load (s : Sample) (settings : Settings) : Except ParseError Automaton :=
  Automaton.ofText s.formalism s.source settings

end Sample

end Acceptors
