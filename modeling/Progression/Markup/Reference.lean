import Progression.Number.Digits
import Progression.Text.Search

/-!
References to characters: the five predefined names, and code points in decimal or hexadecimal.
Decoding replaces every reference by its character and keeps everything else as it stands.
-/

namespace Progression.Markup

open Progression.Text

def predefined : List (List Char × Char) :=
  [("lt".toList, '<'), ("gt".toList, '>'), ("amp".toList, '&'), ("quot".toList, '"'),
    ("apos".toList, '\'')]

/-- The character of a code point in a radix. -/
def codePoint? (radix : Nat) (digits : List Char) : Option Char :=
  (Number.word32? radix digits).bind fun n => ofCodePoint? n.toNat

/-- The character that a reference between `&` and `;` stands for. -/
def referenced? (name : List Char) : Option Char :=
  match predefined.lookup name with
  | some c => some c
  | none =>
    match name with
    | '#' :: 'x' :: digits => codePoint? 16 digits
    | '#' :: 'X' :: digits => codePoint? 16 digits
    | '#' :: digits => codePoint? 10 digits
    | _ => none

def decode : List Char → List Char
  | [] => []
  | c :: cs =>
    if c = '&' then
      match _h : cut? [';'] cs with
      | some (name, rest) =>
        match referenced? name with
        | some d => d :: decode rest
        | none => c :: decode cs
      | none => c :: decode cs
    else c :: decode cs
termination_by s => s.length
decreasing_by
  · have := length_of_cut? _h
    simp only [List.length_cons]; omega
  all_goals simp

end Progression.Markup
