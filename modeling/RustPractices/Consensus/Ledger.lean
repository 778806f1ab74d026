import RustPractices.Consensus.Book

/-!
# The money in the book

A client can put money into an account and take money out of it, and nothing else creates or
destroys money. With an addition that wraps around, this holds modulo the range of `usize`. The
ledger is the book that has no range: the book follows it as long as no balance leaves the range.

## Main definitions

* `Book.Executes`: a command is executed and not refused
* `Book.total`: the sum of all balances
* `Ledger`, `Ledger.execute`: the accounts with unbounded balances, and a command on them
* `Exact`: the commands have the exact amounts, in both build profiles

## Main results

* `Book.total_execute`: what a command does to the sum of all balances
* `executeAll_conserves`: the balances are what has been deposited and not withdrawn
* `exact_iff`: the amounts are exact as long as no balance of the ledger leaves the range
-/

namespace Consensus

/-! ## Sums of balances -/

/-- A sum when one of its terms changes. -/
theorem finsum_update {α : Type*} [DecidableEq α] {f : α → ℕ} (hf : f.HasFiniteSupport) (a : α)
    (v : ℕ) : (∑ᶠ i, Function.update f a v i) + f a = (∑ᶠ i, f i) + v := by
  have hf' : (Function.update f a v).HasFiniteSupport := by
    refine (hf.union (Set.finite_singleton a)).subset fun i hi => ?_
    by_cases hia : i = a
    · exact .inr hia
    · exact .inl (by simpa [Function.update_of_ne hia] using hi)
  have hrest : ∑ᶠ (i) (_ : i ≠ a), Function.update f a v i = ∑ᶠ (i) (_ : i ≠ a), f i :=
    finsum_congr fun i => finsum_congr fun hia => Function.update_of_ne hia _ _
  rw [← add_finsum_cond_ne a hf, ← add_finsum_cond_ne a hf', hrest, Function.update_self]
  omega

/-- The amount that a command puts into an account. -/
def Command.deposited : Command → ℕ
  | .deposit _ amount => amount.toNat
  | .openAccount _ | .withdraw _ _ | .transfer _ _ _ => 0

/-- The amount that a command takes out of an account. -/
def Command.withdrawn : Command → ℕ
  | .withdraw _ amount => amount.toNat
  | .openAccount _ | .deposit _ _ | .transfer _ _ _ => 0

/-- The accounts that a command names. -/
def Command.accounts : Command → List String
  | .openAccount account | .deposit account _ | .withdraw account _ => [account]
  | .transfer src dst _ => [src, dst]

namespace Book

/-- The command is executed: the accounts that it moves money between are open, the one that it
opens is not, and the balance is enough. -/
def Executes (book : Book) : Command → Prop
  | .openAccount account => book account = none
  | .deposit account _ => (book account).isSome
  | .withdraw account amount => ∃ balance, book account = some balance ∧ amount ≤ balance
  | .transfer src dst amount =>
    (∃ balance, book src = some balance ∧ amount ≤ balance) ∧ (book dst).isSome

instance (book : Book) (cmd : Command) : Decidable (book.Executes cmd) :=
  match cmd with
  | .openAccount account => inferInstanceAs (Decidable (book account = none))
  | .deposit account _ => inferInstanceAs (Decidable ((book account).isSome = true))
  | .withdraw account amount =>
    inferInstanceAs (Decidable (∃ balance, book account = some balance ∧ amount ≤ balance))
  | .transfer src dst amount =>
    inferInstanceAs (Decidable ((∃ balance, book src = some balance ∧ amount ≤ balance) ∧
      (book dst).isSome = true))

/-- The balance of an account, where there is one. -/
def balance (book : Book) (account : String) : ℕ := ((book account).map UInt64.toNat).getD 0

/-- The sum of all balances. -/
noncomputable def total (book : Book) : ℕ := ∑ᶠ account, book.balance account

/-- Only finitely many accounts are open. -/
def Finite (book : Book) : Prop := {account | book account ≠ none}.Finite

/-- A balance is set. -/
def set (book : Book) (account : String) (balance : UInt64) : Book :=
  Function.update book account (some balance)

/-- The commands one after the other. -/
def executeAll (add : UInt64 → UInt64 → Option UInt64) (book : Book) : List Command → Option Book
  | [] => some book
  | cmd :: cmds => do (← book.execute add cmd).executeAll add cmds

/-- The commands that are executed and not refused, one after the other. -/
def executed (add : UInt64 → UInt64 → Option UInt64) (book : Book) : List Command → List Command
  | [] => []
  | cmd :: cmds =>
    match book.execute add cmd with
    | none => []
    | some book' =>
      if book.Executes cmd then cmd :: book'.executed add cmds else book'.executed add cmds

section Balance

variable {book book' : Book} {account : String} {amount : UInt64}

theorem balance_eq (h : book account = some amount) : book.balance account = amount.toNat := by
  simp [balance, h]

theorem balance_eq_zero (h : book account = none) : book.balance account = 0 := by
  simp [balance, h]

theorem balance_set (book : Book) (account : String) (amount : UInt64) :
    (book.set account amount).balance = Function.update book.balance account amount.toNat := by
  funext a
  by_cases ha : a = account
  · subst ha
    simp [balance, set]
  · simp [balance, set, ha]

theorem Finite.hasFiniteSupport (h : book.Finite) : book.balance.HasFiniteSupport := by
  refine h.subset fun a ha hnone => ha ?_
  exact balance_eq_zero hnone

theorem Finite.set (h : book.Finite) (account : String) (amount : UInt64) :
    (book.set account amount).Finite := by
  refine (h.union (Set.finite_singleton account)).subset fun a ha => ?_
  by_cases haa : a = account
  · exact .inr haa
  · exact .inl (by simpa [Book.set, haa] using ha)

/-- The sum of all balances when one of them is set. -/
theorem total_set (h : book.Finite) (account : String) (amount : UInt64) :
    (book.set account amount).total + book.balance account = book.total + amount.toNat := by
  rw [total, balance_set]
  exact finsum_update h.hasFiniteSupport account amount.toNat

end Balance

/-! ## What a command does -/

/-- What a command that is executed does, where additions wrap around: it sets the balances of the
accounts that it names. -/
theorem execute_of_executes (book : Book) :
    ∀ cmd, book.Executes cmd → book.execute wrappingAdd cmd = some (match cmd with
      | .openAccount account => book.set account 0
      | .deposit account amount => book.set account ((book account).getD 0 + amount)
      | .withdraw account amount => book.set account ((book account).getD 0 - amount)
      | .transfer src dst amount =>
        let book' := book.set src ((book src).getD 0 - amount)
        book'.set dst ((book' dst).getD 0 + amount))
  | .openAccount account, h => by
    have hnone : book account = none := h
    simp [execute, hnone, set]
  | .deposit account amount, h => by
    obtain ⟨balance, hsome⟩ := Option.isSome_iff_exists.mp h
    simp [execute, hsome, set, wrappingAdd]
  | .withdraw account amount, h => by
    obtain ⟨balance, hsome, hle⟩ := h
    simp [execute, hsome, hle, set]
  | .transfer src dst amount, h => by
    obtain ⟨⟨balance, hsrc, hle⟩, hdst⟩ := h
    obtain ⟨balance', hdst⟩ := Option.isSome_iff_exists.mp hdst
    -- the destination may be the source, and is open after the source has been debited
    obtain ⟨balance'', hset⟩ :
        ∃ balance'', Function.update book src (some (balance - amount)) dst = some balance'' := by
      by_cases heq : dst = src
      · exact ⟨_, by rw [heq, Function.update_self]⟩
      · exact ⟨balance', by rw [Function.update_of_ne heq, hdst]⟩
    simp [execute, hsrc, hdst, hle, set, hset, wrappingAdd]

/-- A command that is refused leaves the book as it is, in both build profiles. -/
theorem execute_of_not_executes (add : UInt64 → UInt64 → Option UInt64) (book : Book) :
    ∀ cmd, ¬ book.Executes cmd → book.execute add cmd = some book
  | .openAccount account, h => by
    obtain ⟨balance, hsome⟩ := Option.ne_none_iff_exists'.mp h
    simp [execute, hsome]
  | .deposit account amount, h => by
    have hnone : book account = none := by simpa [Executes] using h
    simp [execute, hnone]
  | .withdraw account amount, h => by
    cases hbook : book account with
    | none => simp [execute, hbook]
    | some balance =>
      have hlt : ¬ amount ≤ balance := fun hle => h ⟨balance, hbook, hle⟩
      simp [execute, hbook, hlt]
  | .transfer src dst amount, h => by
    cases hsrc : book src with
    | none => simp [execute, hsrc]
    | some balance =>
      cases hdst : book dst with
      | none => simp [execute, hsrc, hdst]
      | some balance' =>
        have hlt : ¬ amount ≤ balance := fun hle => h ⟨⟨balance, hsrc, hle⟩, by simp [hdst]⟩
        simp [execute, hsrc, hdst, hlt]

section Wrapping

variable {book book' : Book} {cmd : Command}

/-- A command changes the accounts that it names. -/
theorem execute_frame (h : book.execute wrappingAdd cmd = some book') {account : String}
    (hnot : account ∉ cmd.accounts) : book' account = book account := by
  by_cases hexec : book.Executes cmd
  · rw [execute_of_executes book cmd hexec] at h
    obtain rfl := Option.some.inj h
    cases cmd <;> simp_all [Command.accounts, set]
  · rw [execute_of_not_executes _ book cmd hexec] at h
    rw [Option.some.inj h]

theorem Finite.execute (hfin : book.Finite) (h : book.execute wrappingAdd cmd = some book') :
    book'.Finite := by
  by_cases hexec : book.Executes cmd
  · rw [execute_of_executes book cmd hexec] at h
    obtain rfl := Option.some.inj h
    cases cmd with
    | openAccount account => exact hfin.set _ _
    | deposit account amount => exact hfin.set _ _
    | withdraw account amount => exact hfin.set _ _
    | transfer src dst amount => exact (hfin.set _ _).set _ _
  · rw [execute_of_not_executes _ book cmd hexec] at h
    exact Option.some.inj h ▸ hfin

/-- A sum that wraps around is the sum up to the range. -/
theorem toNat_add_mod (a b : UInt64) : (a + b).toNat ≡ a.toNat + b.toNat [MOD 2 ^ 64] := by
  rw [UInt64.toNat_add]
  exact Nat.mod_modEq _ _

/-- What a command that is executed does to the sum of all balances. -/
theorem total_execute (hfin : book.Finite) (hexec : book.Executes cmd)
    (h : book.execute wrappingAdd cmd = some book') :
    book'.total + cmd.withdrawn ≡ book.total + cmd.deposited [MOD 2 ^ 64] := by
  rw [execute_of_executes book cmd hexec] at h
  obtain rfl := Option.some.inj h
  cases cmd with
  | openAccount account =>
    have hset := total_set hfin account 0
    have hnone : book account = none := hexec
    rw [balance_eq_zero hnone] at hset
    exact congrArg (· % 2 ^ 64) hset
  | deposit account amount =>
    obtain ⟨balance, hsome⟩ := Option.isSome_iff_exists.mp hexec
    have hset := total_set hfin account (balance + amount)
    rw [balance_eq hsome] at hset
    simp only [hsome, Option.getD_some]
    have hadd : (book.set account (balance + amount)).total + balance.toNat ≡
        book.total + amount.toNat + balance.toNat [MOD 2 ^ 64] := by
      rw [hset, add_assoc, add_comm amount.toNat]
      exact (toNat_add_mod balance amount).add_left _
    exact hadd.add_right_cancel' _
  | withdraw account amount =>
    obtain ⟨balance, hsome, hle⟩ := hexec
    have hset := total_set hfin account (balance - amount)
    have hle' := UInt64.le_iff_toNat_le.mp hle
    rw [balance_eq hsome, UInt64.toNat_sub_of_le _ _ hle] at hset
    simp only [hsome, Option.getD_some]
    refine congrArg (· % 2 ^ 64) ?_
    simp only [Command.withdrawn, Command.deposited]
    omega
  | transfer src dst amount =>
    obtain ⟨⟨balance, hsrc, hle⟩, hdst⟩ := hexec
    have hle' := UInt64.le_iff_toNat_le.mp hle
    have hsub := total_set hfin src (balance - amount)
    rw [balance_eq hsrc, UInt64.toNat_sub_of_le _ _ hle] at hsub
    simp only [hsrc, Option.getD_some]
    obtain ⟨balance', hset⟩ : ∃ balance', book.set src (balance - amount) dst = some balance' := by
      by_cases heq : dst = src
      · exact ⟨balance - amount, by rw [heq, set, Function.update_self]⟩
      · rw [set, Function.update_of_ne heq]
        exact Option.isSome_iff_exists.mp hdst
    have hadd := total_set (hfin.set src (balance - amount)) dst (balance' + amount)
    rw [balance_eq hset] at hadd
    simp only [hset, Option.getD_some]
    have hmod : ((book.set src (balance - amount)).set dst (balance' + amount)).total +
        balance'.toNat ≡ book.total + balance'.toNat [MOD 2 ^ 64] := by
      rw [hadd]
      refine ((toNat_add_mod balance' amount).add_left _).trans (congrArg (· % 2 ^ 64) ?_)
      omega
    exact hmod.add_right_cancel' _

/-- In the build profile that wraps around, no command panics. -/
theorem execute_wrapping (book : Book) (cmd : Command) :
    ∃ book', book.execute wrappingAdd cmd = some book' := by
  by_cases hexec : book.Executes cmd
  · exact ⟨_, execute_of_executes book cmd hexec⟩
  · exact ⟨book, execute_of_not_executes _ book cmd hexec⟩

/-- What the commands do to the sum of all balances, one after the other. -/
theorem total_executeAll (cmds : List Command) : ∀ {book : Book}, book.Finite →
    ∃ book', book.executeAll wrappingAdd cmds = some book' ∧ book'.Finite ∧
      book'.total + ((book.executed wrappingAdd cmds).map Command.withdrawn).sum ≡
        book.total + ((book.executed wrappingAdd cmds).map Command.deposited).sum
          [MOD 2 ^ 64] := by
  induction cmds with
  | nil => exact fun hfin => ⟨_, rfl, hfin, Nat.ModEq.rfl⟩
  | cons cmd cmds ih =>
    intro book hfin
    obtain ⟨book', hstep⟩ := execute_wrapping book cmd
    obtain ⟨book'', hrest, hfin', htotal⟩ := ih (hfin.execute hstep)
    refine ⟨book'', by simp [executeAll, hstep, hrest], hfin', ?_⟩
    by_cases hexec : book.Executes cmd
    · have hcmd := total_execute hfin hexec hstep
      simp only [executed, hstep, if_pos hexec, List.map_cons, List.sum_cons]
      calc book''.total +
            (cmd.withdrawn + ((book'.executed wrappingAdd cmds).map Command.withdrawn).sum)
        _ = book''.total + ((book'.executed wrappingAdd cmds).map Command.withdrawn).sum +
            cmd.withdrawn := by omega
        _ ≡ book'.total + ((book'.executed wrappingAdd cmds).map Command.deposited).sum +
            cmd.withdrawn [MOD 2 ^ 64] := htotal.add_right _
        _ = book'.total + cmd.withdrawn +
            ((book'.executed wrappingAdd cmds).map Command.deposited).sum := by omega
        _ ≡ book.total + cmd.deposited +
            ((book'.executed wrappingAdd cmds).map Command.deposited).sum [MOD 2 ^ 64] :=
          hcmd.add_right _
        _ = _ := by omega
    · have hsame := execute_of_not_executes wrappingAdd book cmd hexec
      obtain rfl := Option.some.inj (hsame.symm.trans hstep)
      simpa only [executed, hstep, if_neg hexec] using htotal

end Wrapping

/-- The book before the first command. -/
def empty : Book := fun _ => none

theorem finite_empty : empty.Finite := by simp [Finite, empty]

theorem total_empty : empty.total = 0 := by simp [total, balance, empty]

end Book

/-- **The money in the book** after any commands: it is what has been deposited and not withdrawn. A
command that is refused changes nothing, one that is executed changes the accounts that it names,
and a transfer keeps the sum. -/
theorem executeAll_conserves (cmds : List Command) :
    ∃ book, Book.empty.executeAll wrappingAdd cmds = some book ∧
      (book.total : ℤ) ≡ ((Book.empty.executed wrappingAdd cmds).map Command.deposited).sum -
        ((Book.empty.executed wrappingAdd cmds).map Command.withdrawn).sum [ZMOD 2 ^ 64] ∧
      ∀ cmd, ∃ book', book.execute wrappingAdd cmd = some book' ∧
        (¬ book.Executes cmd → book' = book) ∧
        (∀ account ∉ cmd.accounts, book' account = book account) ∧
        ∀ src dst amount, cmd = .transfer src dst amount →
          book'.total ≡ book.total [MOD 2 ^ 64] := by
  obtain ⟨book, hrun, hfin, htotal⟩ := Book.total_executeAll cmds Book.finite_empty
  refine ⟨book, hrun, ?_, fun cmd => ?_⟩
  · rw [Book.total_empty, zero_add] at htotal
    generalize ((Book.empty.executed wrappingAdd cmds).map Command.withdrawn).sum = w at htotal ⊢
    have hsub := (Int.natCast_modEq_iff.mpr htotal).sub_right (w : ℤ)
    rwa [Nat.cast_add, add_sub_cancel_right] at hsub
  · obtain ⟨book', hstep⟩ := book.execute_wrapping cmd
    refine ⟨book', hstep, ?_, fun account => Book.execute_frame hstep, ?_⟩
    · intro hrefused
      rw [book.execute_of_not_executes _ cmd hrefused] at hstep
      exact (Option.some.inj hstep).symm
    · rintro src dst amount rfl
      by_cases hexec : book.Executes (.transfer src dst amount)
      · exact Book.total_execute hfin hexec hstep
      · rw [book.execute_of_not_executes _ _ hexec] at hstep
        rw [Option.some.inj hstep]

/-! ## Exact amounts -/

/-- The open accounts with balances that have no range. -/
abbrev Ledger := String → Option ℕ

namespace Ledger

/-- A command with the exact amount: it is executed when the book would execute it, and otherwise
refused. -/
def execute (ledger : Ledger) : Command → Ledger
  | .openAccount account =>
    if ledger account = none then Function.update ledger account (some 0) else ledger
  | .deposit account amount =>
    match ledger account with
    | some balance => Function.update ledger account (some (balance + amount.toNat))
    | none => ledger
  | .withdraw account amount =>
    match ledger account with
    | some balance =>
      if amount.toNat ≤ balance then
        Function.update ledger account (some (balance - amount.toNat))
      else ledger
    | none => ledger
  | .transfer src dst amount =>
    match ledger src, ledger dst with
    | some srcBalance, some dstBalance =>
      if amount.toNat ≤ srcBalance ∧ src ≠ dst then
        Function.update (Function.update ledger src (some (srcBalance - amount.toNat))) dst
          (some (dstBalance + amount.toNat))
      else ledger
    | _, _ => ledger

/-- The commands one after the other. -/
def executeAll (ledger : Ledger) (cmds : List Command) : Ledger := cmds.foldl execute ledger

/-- The ledger before the first command. -/
def empty : Ledger := fun _ => none

/-- Every balance is in the range of `usize`. -/
def Fits (ledger : Ledger) : Prop := ∀ account balance, ledger account = some balance → balance < 2 ^ 64

end Ledger

/-- The balances of the book. -/
def Book.ledger (book : Book) : Ledger := fun account => (book account).map UInt64.toNat

namespace Book

variable {book : Book} {cmd : Command}

theorem fits_ledger (book : Book) : book.ledger.Fits := by
  intro account balance h
  obtain ⟨amount, -, rfl⟩ := Option.map_eq_some_iff.mp h
  exact amount.toNat_lt

theorem ledger_eq {account : String} {balance : UInt64} (h : book account = some balance) :
    book.ledger account = some balance.toNat := by
  simp [ledger, h]

theorem ledger_eq_none {account : String} (h : book account = none) : book.ledger account = none := by
  simp [ledger, h]

theorem ledger_set (book : Book) (account : String) (balance : UInt64) :
    (book.set account balance).ledger =
      Function.update book.ledger account (some balance.toNat) := by
  funext a
  by_cases ha : a = account
  · subst ha
    simp [ledger, set]
  · simp [ledger, set, ha]

/-- Both build profiles add alike where the sum is in the range. -/
theorem add_eq (a b : UInt64) (h : a.toNat + b.toNat < 2 ^ 64) :
    checkedAdd a b = some (a + b) ∧ (a + b).toNat = a.toNat + b.toNat := by
  refine ⟨if_pos h, ?_⟩
  rw [UInt64.toNat_add, Nat.mod_eq_of_lt h]

/-- A command has the exact amount in both build profiles. -/
def Follows (book : Book) (cmd : Command) (book' : Book) : Prop :=
  book.execute checkedAdd cmd = some book' ∧ book.execute wrappingAdd cmd = some book' ∧
    book'.ledger = book.ledger.execute cmd

/-- A deposit overflows exactly when it leaves the range. -/
theorem deposit_cases {account : String} {balance amount : UInt64}
    (h : book account = some balance) :
    (balance.toNat + amount.toNat < 2 ^ 64 ∧
      book.Follows (.deposit account amount) (book.set account (balance + amount))) ∨
    (book.execute checkedAdd (.deposit account amount) = none ∧
      ¬ (book.ledger.execute (.deposit account amount)).Fits) := by
  have hledger : book.ledger.execute (.deposit account amount) =
      Function.update book.ledger account (some (balance.toNat + amount.toNat)) := by
    simp [Ledger.execute, ledger_eq h]
  rcases lt_or_ge (balance.toNat + amount.toNat) (2 ^ 64) with hlt | hge
  · obtain ⟨hadd, htoNat⟩ := add_eq balance amount hlt
    refine .inl ⟨hlt, ?_, ?_, ?_⟩
    · simp [execute, h, hadd, set]
    · simp [execute, h, wrappingAdd, set]
    · rw [ledger_set, htoNat, hledger]
  · refine .inr ⟨?_, fun hfits => ?_⟩
    · have hnone : checkedAdd balance amount = none := if_neg (not_lt.mpr hge)
      simp [execute, h, hnone]
    · have := hfits account (balance.toNat + amount.toNat) (by rw [hledger, Function.update_self])
      omega

/-- A transfer overflows exactly when its destination leaves the range, which it cannot when it is
the source. -/
theorem transfer_cases {src dst : String} {balance balance' amount : UInt64}
    (hsrc : book src = some balance) (hdst : book dst = some balance') (hle : amount ≤ balance) :
    (∃ book', book.Follows (.transfer src dst amount) book') ∨
    (book.execute checkedAdd (.transfer src dst amount) = none ∧
      ¬ (book.ledger.execute (.transfer src dst amount)).Fits) := by
  have hle' := UInt64.le_iff_toNat_le.mp hle
  have hsub := UInt64.toNat_sub_of_le _ _ hle
  by_cases heq : src = dst
  · subst heq
    have hback := add_eq (balance - amount) amount (by have := balance.toNat_lt; omega)
    have hsame : balance - amount + amount = balance := UInt64.toNat_inj.mp (by omega)
    have hbook : Function.update book src (some balance) = book := by
      rw [← hsrc, Function.update_eq_self]
    refine .inl ⟨book, ?_, ?_, ?_⟩
    · simp [execute, hsrc, hle, hback.1, hsame, hbook]
    · simp [execute, hsrc, hle, wrappingAdd, hsame, hbook]
    · simp [Ledger.execute, ledger_eq hsrc]
  · have hother : Function.update book src (some (balance - amount)) dst = some balance' := by
      rw [Function.update_of_ne (Ne.symm heq), hdst]
    have hledger : book.ledger.execute (.transfer src dst amount) =
        Function.update (Function.update book.ledger src (some (balance.toNat - amount.toNat))) dst
          (some (balance'.toNat + amount.toNat)) := by
      simp [Ledger.execute, ledger_eq hsrc, ledger_eq hdst, hle', heq]
    rcases lt_or_ge (balance'.toNat + amount.toNat) (2 ^ 64) with hlt | hge
    · obtain ⟨hadd, htoNat⟩ := add_eq balance' amount hlt
      refine .inl ⟨(book.set src (balance - amount)).set dst (balance' + amount), ?_, ?_, ?_⟩
      · simp [execute, hsrc, hdst, hle, hother, hadd, set]
      · simp [execute, hsrc, hdst, hle, hother, wrappingAdd, set]
      · rw [ledger_set, ledger_set, htoNat, hsub, hledger]
    · refine .inr ⟨?_, fun hfits => ?_⟩
      · have hnone : checkedAdd balance' amount = none := if_neg (not_lt.mpr hge)
        simp [execute, hsrc, hdst, hle, hother, hnone]
      · have := hfits dst (balance'.toNat + amount.toNat) (by rw [hledger, Function.update_self])
        omega

/-- **A command** has the exact amount, or panics where the addition is checked because a balance
leaves the range. -/
theorem follows_or_overflows (book : Book) : ∀ cmd,
    (∃ book', book.Follows cmd book') ∨
      (book.execute checkedAdd cmd = none ∧ ¬ (book.ledger.execute cmd).Fits)
  | .openAccount account => by
    left
    cases h : book account with
    | some balance => exact ⟨book, by simp [execute, h], by simp [execute, h],
        by simp [Ledger.execute, ledger_eq h]⟩
    | none =>
      refine ⟨book.set account 0, by simp [execute, h, set], by simp [execute, h, set], ?_⟩
      rw [ledger_set]
      simp [Ledger.execute, ledger_eq_none h]
  | .deposit account amount => by
    cases h : book account with
    | some balance => exact (deposit_cases h).imp_left fun hfollows => ⟨_, hfollows.2⟩
    | none => exact .inl ⟨book, by simp [execute, h], by simp [execute, h],
        by simp [Ledger.execute, ledger_eq_none h]⟩
  | .withdraw account amount => by
    left
    cases h : book account with
    | some balance =>
      by_cases hle : amount ≤ balance
      · refine ⟨book.set account (balance - amount), by simp [execute, h, hle, set],
          by simp [execute, h, hle, set], ?_⟩
        rw [ledger_set, UInt64.toNat_sub_of_le _ _ hle]
        simp [Ledger.execute, ledger_eq h, UInt64.le_iff_toNat_le.mp hle]
      · have hlt : ¬ amount.toNat ≤ balance.toNat := fun h => hle (UInt64.le_iff_toNat_le.mpr h)
        exact ⟨book, by simp [execute, h, hle], by simp [execute, h, hle],
          by simp [Ledger.execute, ledger_eq h, hlt]⟩
    | none => exact ⟨book, by simp [execute, h], by simp [execute, h],
        by simp [Ledger.execute, ledger_eq_none h]⟩
  | .transfer src dst amount => by
    cases hsrc : book src with
    | none => exact .inl ⟨book, by simp [execute, hsrc], by simp [execute, hsrc],
        by simp [Ledger.execute, ledger_eq_none hsrc]⟩
    | some balance =>
      cases hdst : book dst with
      | none => exact .inl ⟨book, by simp [execute, hsrc, hdst], by simp [execute, hsrc, hdst],
          by simp [Ledger.execute, ledger_eq hsrc, ledger_eq_none hdst]⟩
      | some balance' =>
        by_cases hle : amount ≤ balance
        · exact transfer_cases hsrc hdst hle
        · have hlt : ¬ amount.toNat ≤ balance.toNat := fun h => hle (UInt64.le_iff_toNat_le.mpr h)
          exact .inl ⟨book, by simp [execute, hsrc, hdst, hle], by simp [execute, hsrc, hdst, hle],
            by simp [Ledger.execute, ledger_eq hsrc, ledger_eq hdst, hlt]⟩

end Book

/-- **The commands have the exact amounts**: in both build profiles each of them is executed with its
amount, or refused. -/
def Exact (cmds : List Command) : Prop :=
  ∀ done, done <+: cmds → ∃ book, Book.empty.executeAll checkedAdd done = some book ∧
    Book.empty.executeAll wrappingAdd done = some book ∧
    book.ledger = Ledger.empty.executeAll done

/-- A command after others. -/
theorem Book.executeAll_append (add : UInt64 → UInt64 → Option UInt64) (cmd : Command) :
    ∀ (cmds : List Command) (book : Book), book.executeAll add (cmds ++ [cmd]) =
      (book.executeAll add cmds).bind fun book' => book'.execute add cmd
  | [], book => by
    simp only [List.nil_append, Book.executeAll]
    cases hstep : book.execute add cmd <;> simp [hstep]
  | c :: cmds, book => by
    simp only [List.cons_append, Book.executeAll]
    cases book.execute add c with
    | none => rfl
    | some book' => exact Book.executeAll_append add cmd cmds book'

/-- **The amounts are exact** exactly as long as no balance leaves the range. -/
theorem exact_iff (cmds : List Command) :
    Exact cmds ↔ ∀ done, done <+: cmds → (Ledger.empty.executeAll done).Fits := by
  constructor
  · intro h done hdone
    obtain ⟨book, -, -, hledger⟩ := h done hdone
    rw [← hledger]
    exact book.fits_ledger
  · intro h done
    induction done using List.reverseRecOn with
    | nil => exact fun _ => ⟨.empty, rfl, rfl, rfl⟩
    | append_singleton done cmd ih =>
      intro hdone
      obtain ⟨book, hchecked, hwrapping, hledger⟩ := ih ((List.prefix_append done [cmd]).trans hdone)
      have hnext : Ledger.empty.executeAll (done ++ [cmd]) = book.ledger.execute cmd := by
        rw [hledger, Ledger.executeAll, List.foldl_append]
        rfl
      rcases book.follows_or_overflows cmd with ⟨book', hchecked', hwrapping', hledger'⟩ |
        ⟨-, hover⟩
      · exact ⟨book', by simp [Book.executeAll_append, hchecked, hchecked'],
          by simp [Book.executeAll_append, hwrapping, hwrapping'], by rw [hledger', hnext]⟩
      · exact absurd (hnext ▸ h _ hdone) hover

/-- Two deposits of which the second leaves the range. -/
theorem not_exact_deposit :
    ¬ Exact [.openAccount "a", .deposit "a" (2 ^ 64 - 1), .deposit "a" 1] := by
  intro h
  obtain ⟨book, hchecked, -⟩ := h _ List.prefix_rfl
  have hnone : Book.empty.executeAll checkedAdd
      [.openAccount "a", .deposit "a" (2 ^ 64 - 1), .deposit "a" 1] = none := by decide +kernel
  exact absurd (hnone.symm.trans hchecked) (by simp)

end Consensus
