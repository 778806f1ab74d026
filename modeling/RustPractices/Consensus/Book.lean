import Mathlib

/-!
# The book of accounts

A command of a client opens an account, or moves money into, out of or between accounts. A command
that cannot be executed is refused. Amounts and balances are `usize`; what an addition does at the
end of its range depends on the build profile and is a parameter here.

## Main definitions

* `Command`: the commands of the clients
* `Book`, `Book.execute`: the accounts, and a command on them
* `checkedAdd`, `wrappingAdd`: the addition of the two build profiles
-/

namespace Consensus

/-- `Command`. -/
inductive Command
  | openAccount (account : String)
  | deposit (account : String) (amount : UInt64)
  | withdraw (account : String) (amount : UInt64)
  | transfer (src dst : String) (amount : UInt64)
  deriving DecidableEq, Repr

/-- The addition that panics on overflow. -/
def checkedAdd (a b : UInt64) : Option UInt64 :=
  if a.toNat + b.toNat < 2 ^ 64 then some (a + b) else none

/-- The addition that wraps around. -/
def wrappingAdd (a b : UInt64) : Option UInt64 := some (a + b)

/-- The balances of the open accounts. -/
abbrev Book := String → Option UInt64

/-- A command on the book, as `apply_log` executes it: a refused command leaves the book as it is,
and a panic gives no book. -/
def Book.execute (add : UInt64 → UInt64 → Option UInt64) (book : Book) : Command → Option Book
  | .openAccount account =>
    match book account with
    | some _ => some book
    | none => some (Function.update book account (some 0))
  | .deposit account amount =>
    match book account with
    | some balance => do
      let balance ← add balance amount
      return Function.update book account (some balance)
    | none => some book
  | .withdraw account amount =>
    match book account with
    | some balance =>
      if amount ≤ balance then some (Function.update book account (some (balance - amount)))
      else some book
    | none => some book
  | .transfer src dst amount =>
    match book src with
    | some srcBalance =>
      match book dst with
      | some _ =>
        if amount ≤ srcBalance then
          -- the balance of `dst` is read after the one of `src` is set
          let book := Function.update book src (some (srcBalance - amount))
          match book dst with
          | some dstBalance => do
            let balance ← add dstBalance amount
            return Function.update book dst (some balance)
          | none => some book
        else some book
      | none => some book
    | none => some book

end Consensus
