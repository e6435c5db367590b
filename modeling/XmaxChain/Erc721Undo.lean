import XmaxChain.TrxContext

/-!
# Undoing what was done to ERC721 ids

To undo a session the rows that it modified get their old values back, one after the other from the
oldest, and only then the rows that it made are erased. Only the rows of ERC721 ids can clash then: a
modification changes the owner, and an owner has one row for each token. So an old owner who holds
another id by then is in the way.
-/

namespace XmaxChain

abbrev Erc721Rows := Table (AssetSymbol × TokenId) AccountName

/-- A row gets its old owner back. The row whose modification fails is erased. -/
def giveBack (rows : Erc721Rows) (old : (AssetSymbol × TokenId) × AccountName) :
    Except (Fault × Erc721Rows) Erc721Rows :=
  match rows.find? old.1 with
  | none => .error (.undefined "modified object not found", rows)
  | some owner =>
    if owner = old.2 then .ok rows
    else if rows.rows.any fun r => r.1.1 = old.1.1 && r.1.2 ≠ old.1.2 && r.2 = old.2 then
      .error (.std "Could not modify object, most likely a uniqueness constraint was violated",
        rows.remove old.1)
    else .ok (rows.modify old.1 fun _ => old.2)

/-- The rows as they were in `old`, or what is thrown and what is left then. -/
def undoRows (old rows : Erc721Rows) : Except (Fault × Erc721Rows) Erc721Rows :=
  match old.rows.foldlM giveBack rows with
  | .error e => .error e
  | .ok _ => .ok old

/-- Every row can be given its old owner back. -/
def GivesBack (old rows : Erc721Rows) : Prop := (undoRows old rows).isOk = true

instance (old rows : Erc721Rows) : Decidable (GivesBack old rows) := by
  unfold GivesBack
  infer_instance

section Rows

variable {old rows : Erc721Rows}

theorem GivesBack.undoRows (h : GivesBack old rows) : undoRows old rows = .ok old := by
  unfold GivesBack at h
  unfold XmaxChain.undoRows at h ⊢
  cases hall : old.rows.foldlM giveBack rows with
  | error e =>
    rw [hall] at h
    cases h
  | ok r => rfl

theorem undoRows_error (h : ¬ GivesBack old rows) : ∃ e, undoRows old rows = .error e := by
  unfold GivesBack at h
  cases hundo : undoRows old rows with
  | error e => exact ⟨e, rfl⟩
  | ok r => simp [hundo, Except.isOk, Except.toBool] at h

/-- Where no row has another owner there is nothing to give back. -/
theorem givesBack_of_kept (h : ∀ r ∈ old.rows, rows.find? r.1 = some r.2) : GivesBack old rows := by
  have hall : ∀ l : List ((AssetSymbol × TokenId) × AccountName), (∀ r ∈ l, rows.find? r.1 = some r.2) →
      l.foldlM giveBack rows = .ok rows := by
    intro l hl
    induction l with
    | nil => rfl
    | cons r l ih =>
      have hfirst : giveBack rows r = .ok rows := by
        simp only [giveBack, hl r List.mem_cons_self, if_true]
      rw [List.foldlM_cons, hfirst]
      exact ih fun x hx => hl x (List.mem_cons_of_mem _ hx)
  unfold GivesBack XmaxChain.undoRows
  rw [hall old.rows h]
  rfl

theorem givesBack_self : GivesBack old old :=
  givesBack_of_kept fun _ hr => Table.find?_of_mem_rows hr

end Rows

section Left

variable (env : Env) (trx : SignedTransaction) (currentTime : ℕ) (db : AuthDb)

/-- The rows when the messages have run as far as they go: a run that throws has written none. -/
def erc721After : Erc721Rows :=
  match (trxRuns env trx currentTime trx.messages db 0).getLast? with
  | none => db.erc721Accounts
  | some run =>
    match execOneMessage env run.ctx run.isNotify run.start with
    | .ok s => s.db.erc721Accounts
    | .error _ => run.start.db.erc721Accounts

variable {env trx currentTime db} {ctx : MessageContext} {s s' : ExecState}

/-- The loop over the recipients ends as the last of its runs does. -/
theorem notifyRuns_last : ∀ {fuel i : ℕ} {s : ExecState}, notifyLoop env ctx fuel i s = .ok s' →
    (notifyRuns env ctx fuel i s).getLast? = none ∧ s' = s ∨
      ∃ run, (notifyRuns env ctx fuel i s).getLast? = some run ∧
        execOneMessage env run.ctx run.isNotify run.start = .ok s'
  | 0, _, _, h => by cases h
  | fuel + 1, i, s, h => by
    unfold notifyLoop at h
    unfold notifyRuns
    cases hnext : s.notified[i]? with
    | none =>
      rw [hnext] at h
      cases h
      exact .inl ⟨rfl, rfl⟩
    | some account =>
      rw [hnext] at h
      obtain ⟨s₁, hrun, hrest⟩ := bind_eq_ok.1 h
      simp only [hrun]
      rcases notifyRuns_last hrest with ⟨hnone, rfl⟩ | ⟨run, hlast, hrun'⟩
      · rw [List.getLast?_eq_none_iff] at hnone
        rw [hnone]
        exact .inr ⟨_, rfl, hrun⟩
      · refine .inr ⟨run, ?_, hrun'⟩
        rw [List.getLast?_cons, hlast]
        rfl

theorem messageRuns_last {msg : Message} {gas : ℕ} {db : AuthDb}
    (h : execMessage env trx currentTime msg db gas = .ok s') :
    ∃ run, (messageRuns env trx currentTime msg db gas).getLast? = some run ∧
      execOneMessage env run.ctx run.isNotify run.start = .ok s' := by
  obtain ⟨s₁, hrun, h⟩ := bind_eq_ok.1 h
  obtain ⟨-, -, h⟩ := bind_eq_ok.1 h
  unfold messageRuns
  simp only [hrun]
  rcases notifyRuns_last h with ⟨hnone, rfl⟩ | ⟨run, hlast, hrun'⟩
  · rw [List.getLast?_eq_none_iff] at hnone
    rw [hnone]
    exact ⟨_, rfl, hrun⟩
  · refine ⟨run, ?_, hrun'⟩
    rw [List.getLast?_cons, hlast]
    rfl

theorem trxRuns_last {auth : AuthDb} {gas' : ℕ} : ∀ {msgs : List Message} {db : AuthDb} {gas : ℕ},
    execMessages env trx currentTime msgs db gas = .ok (auth, gas') →
    (trxRuns env trx currentTime msgs db gas).getLast? = none ∧ auth = db ∨
      ∃ run s', (trxRuns env trx currentTime msgs db gas).getLast? = some run ∧
        execOneMessage env run.ctx run.isNotify run.start = .ok s' ∧ s'.db = auth
  | [], _, _, h => by
    cases h
    exact .inl ⟨rfl, rfl⟩
  | msg :: msgs, db, gas, h => by
    obtain ⟨s₁, hmsg, hrest⟩ := bind_eq_ok.1 h
    obtain ⟨run, hlast, hrun⟩ := messageRuns_last hmsg
    unfold trxRuns
    simp only [hmsg, List.getLast?_append]
    rcases trxRuns_last hrest with ⟨hnone, rfl⟩ | ⟨run', s', hlast', hrun', hs'⟩
    · rw [hnone, hlast]
      exact .inr ⟨run, s₁, rfl, hrun, rfl⟩
    · rw [hlast']
      exact .inr ⟨run', s', rfl, hrun', hs'⟩

/-- Messages that all go through leave the rows of the last run. -/
theorem erc721After_of_exec {auth : AuthDb} {gas : ℕ}
    (h : exec env trx currentTime db = .ok (auth, gas)) :
    erc721After env trx currentTime db = auth.erc721Accounts := by
  unfold erc721After
  rcases trxRuns_last h with ⟨hnone, rfl⟩ | ⟨run, s', hlast, hrun, rfl⟩
  · rw [hnone]
  · rw [hlast]
    simp only [hrun]

end Left

end XmaxChain
