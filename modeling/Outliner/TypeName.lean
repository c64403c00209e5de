import Outliner.JType
import Outliner.Text.Number

/-!
# Names of types

A spelling for every type, also for those that no descriptor denotes:

* `null` and `top` for themselves;
* `this:C` for the receiver of a constructor of `C` before the call of another constructor, and
  `uninit:S:C` for an object of class `C` created at offset `S` and not yet initialized;
* the descriptor for all other types.

When a name is read, `obj:N` stands for the class with internal name `N` and `arr:T` for the array
of the type named `T`.
-/

namespace Outliner.JType

/-- The name of a type. -/
def spelling : JType → String
  | null => "null"
  | top => "top"
  | uninitialized name site =>
    if site < 0 then "this:" ++ name else "uninit:" ++ toString site ++ ":" ++ name
  | t => t.descriptor

/-- What follows a beginning of a text. -/
def after? (start text : List Char) : Option (List Char) :=
  if start.isPrefixOf text then some (text.drop start.length) else none

/-- Reads the name of a type. The array marks in front are stripped one by one; `fuel` bounds their
number. -/
def ofSpellingWithin : (fuel : Nat) → List Char → Except DescriptorError JType
  | 0, text => parse (String.ofList text)
  | fuel + 1, text =>
    let word := String.ofList text
    if word = "null" then .ok null
    else if word = "top" then .ok top
    else if let some name := after? "obj:".toList text then .ok (ofClassName (String.ofList name))
    else if let some element := after? "arr:".toList text then
      (ofSpellingWithin fuel element).map arrayOf
    else if let some name := after? "this:".toList text then
      .ok (uninitialized (String.ofList name) (-1))
    else if let some rest := after? "uninit:".toList text then
      let site := (Text.readDecimal? (String.ofList (rest.takeWhile (· ≠ ':')))).getD 0
      .ok (uninitialized (String.ofList ((rest.dropWhile (· ≠ ':')).drop 1)) site)
    else if text.head? = some '(' then
      (Signature.parse word).map fun s => ofSignature s.args s.result
    else parse word

/-- **The type with a name.** -/
def ofSpelling (name : String) : Except DescriptorError JType :=
  ofSpellingWithin name.length name.toList

/-- The number of the sort of a type. -/
def sortNumber : JType → Nat
  | void => 0
  | prim p => 1 + Primitive.all.idxOf p
  | array _ => 9
  | object _ => 10
  | method _ => 11
  | null => 12
  | top => 13
  | uninitialized _ _ => 14

end Outliner.JType
