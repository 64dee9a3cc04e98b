import GridCss.Value.Basic

/-!
# Memo of results

Results of costly calls are kept under the family of the call and the text of its arguments. A memo
may have a capacity; once it is full, nothing more is stored. The first result stored under a key
stays until the memo is cleared.
-/

namespace GridCss

structure Memo.Key where
  family : String
  arguments : String
  deriving DecidableEq, Repr

/-- The key of a call: its arguments are told apart by their joined text only. -/
def Memo.Key.ofCall (family : String) (arguments : List Value) : Memo.Key :=
  ⟨family, Value.join arguments "-"⟩

/-- The results stored so far, in order of their arrival. -/
structure Memo where
  entries : List (Memo.Key × List Value) := []
  capacity : Option Nat := none
  deriving Inhabited

namespace Memo

def size (m : Memo) : Nat := m.entries.length

def isEmpty (m : Memo) : Bool := m.entries.isEmpty

def isFull (m : Memo) : Bool := m.capacity.any (· ≤ m.size)

def get? (m : Memo) (k : Key) : Option (List Value) :=
  (m.entries.find? (·.1 == k)).map Prod.snd

def insert (m : Memo) (k : Key) (result : List Value) : Memo :=
  if m.isFull then m else { m with entries := m.entries ++ [(k, result)] }

/-- The stored result of a key, or that of a computation, which is then stored if there is room. The
computation may have effects; it does not run if a result is stored. -/
def rememberM {μ : Type → Type} [Monad μ] (m : Memo) (k : Key) (compute : Unit → μ (List Value)) :
    μ (List Value × Memo) :=
  match m.get? k with
  | some result => return (result, m)
  | none => do
    let result ← compute ()
    return (result, m.insert k result)

/-- The stored result of a key, or a new one, which is then stored if there is room. -/
def remember (m : Memo) (k : Key) (compute : Unit → List Value) : List Value × Memo :=
  Id.run (m.rememberM k compute)

def clear (m : Memo) : Memo := { m with entries := [] }

end Memo
end GridCss
