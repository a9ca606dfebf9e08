import B33.Mnemonic

/-!
# Tokens of source text

A token is a piece of a line with what it stands for. The texts of a line's tokens, one after the
other, are the line.
-/

namespace B33.Source

inductive Directive where
  | rmb
  | str
  | chr
  | finish
  | equ
  deriving DecidableEq, Repr

namespace Directive

def name : Directive → String
  | rmb => "RMB"
  | str => "STR"
  | chr => "CHR"
  | finish => "END"
  | equ => "EQU"

def all : List Directive := [rmb, str, chr, finish, equ]

def ofName? (s : String) : Option Directive :=
  let upper := s.map Char.toUpper
  all.find? (·.name == upper)

end Directive

inductive Radix where
  | hexadecimal | decimal | binary
  deriving DecidableEq, Repr

def Radix.base : Radix → Nat
  | hexadecimal => 16
  | decimal => 10
  | binary => 2

inductive TokenKind where
  | mnemonic (m : Mnemonic)
  | register (r : Register)
  | directive (d : Directive)
  | label (name : String)
  | number (radix : Radix) (value : Nat)
  | text (s : String)
  | comma | hash | plus | minus | colon
  | comment (s : String)
  | blanks
  | newline
  | endOfSource
  deriving DecidableEq, Repr

namespace TokenKind

def number? : TokenKind → Option Nat
  | number _ n => some n
  | _ => none

/-- Whether the token plays no part in the grammar of a line. -/
def isTrivia : TokenKind → Bool
  | blanks | comment _ | newline | endOfSource => true
  | _ => false

/-- What a word stands for: a mnemonic before a directive, and that before a register. -/
def ofWord (word : String) : TokenKind :=
  match Mnemonic.ofName? word, Directive.ofName? word, Register.ofName? word with
  | some m, _, _ => mnemonic m
  | none, some d, _ => directive d
  | none, none, some r => register r
  | none, none, none => label word

end TokenKind

structure Token where
  kind : TokenKind
  text : String
  line : Nat
  /-- The number of characters before it on its line. -/
  column : Nat
  deriving DecidableEq, Repr

end B33.Source
