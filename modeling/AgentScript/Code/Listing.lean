import AgentScript.Text

/-!
Indented lines under construction. A queued comment is written before the next line of code, at the
indentation of that line.
-/
namespace AgentScript

inductive Item (α : Type) where
  | code (indent : Nat) (line : α)
  | comment (indent : Nat) (text : String)
  /-- Text that was rendered elsewhere. -/
  | verbatim (text : String)

structure Listing (α : Type) where
  items : Array (Item α)
  indent : Nat
  queued : Option String

namespace Listing

def empty : Listing α := ⟨#[], 0, none⟩

/-- The indentation is a number of 64 bits that stops at both ends. -/
def shift (indent : Nat) (steps : Int) : Nat := min (UInt64.size - 1) (indent + steps).toNat

def comment (l : Listing α) (text : String) : Listing α :=
  { l with items := l.items.push (.comment l.indent text) }

def queue (l : Listing α) (text : String) : Listing α := { l with queued := some text }

def flush (l : Listing α) : Listing α :=
  match l.queued with
  | some text => { l.comment text with queued := none }
  | none => l

/-- A line of code, with the indentation changed before and after it. -/
def code (l : Listing α) (before : Int) (line : α) (after : Int) : Listing α :=
  let l := { l with indent := shift l.indent before }.flush
  { l with items := l.items.push (.code l.indent line), indent := shift l.indent after }

def line (l : Listing α) (a : α) : Listing α := l.code 0 a 0

def append (l : Listing α) (text : String) : Listing α :=
  { l with items := l.items.push (.verbatim text) }

def setIndent (l : Listing α) (indent : Nat) : Listing α := { l with indent }

end Listing

namespace Item

def indented (indent : Nat) (text : String) : String :=
  String.ofList (List.replicate indent '\t') ++ text ++ "\n"

def render (text : α → String) : Item α → String
  | code indent line => indented indent (text line)
  | comment indent note => indented indent ("* " ++ note)
  | verbatim text => text

end Item

/-- The text from item `start` on. -/
def Listing.renderFrom (text : α → String) (l : Listing α) (start : Nat) : String :=
  String.join ((l.items.toList.drop start).map (Item.render text))

def Listing.render (text : α → String) (l : Listing α) : String := l.renderFrom text 0

end AgentScript
