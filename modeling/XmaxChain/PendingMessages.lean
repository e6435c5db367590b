import XmaxChain.Ledger

/-!
# Messages that a contract is preparing

A contract creates a message, adds authorizations to it, and sends or drops it. Meanwhile it knows the message by a
handle. A release looks for the message of a handle and takes the last one out.
-/

namespace XmaxChain

structure PendingMessage extends Message where
  handle : ℕ
deriving DecidableEq

def PendingMessage.addAuthorization (auth : AccountAuth) (pmsg : PendingMessage) : PendingMessage :=
  { pmsg with authorization := pmsg.authorization ++ [auth] }

/-- What a context keeps of the messages that are being prepared, and those that have been sent. -/
structure PendingMessages where
  nextPendingMessageSerial : ℕ := 0
  pendingMessages : List PendingMessage := []
  inlineMessages : List Message := []
deriving DecidableEq

namespace PendingMessages

abbrev PendingM := EStateM Fault PendingMessages

def unknownMessage : Fault := .fc "Transaction refers to non-existant/destroyed pending message"

/-- The message is changed where it is. -/
def modifyFound (handle : ℕ) (f : PendingMessage → PendingMessage) : List PendingMessage → List PendingMessage
  | [] => []
  | msg :: msgs => if msg.handle = handle then f msg :: msgs else msg :: modifyFound handle f msgs

def getPendingMessage (handle : ℕ) : PendingM PendingMessage := fun s =>
  match s.pendingMessages.find? (·.handle = handle) with
  | some msg => .ok msg s
  | none => .error unknownMessage s

def createPendingMessage (code : AccountName) (type : FuncName) (data : Bytes) : PendingM PendingMessage := fun s =>
  let msg : PendingMessage := ⟨⟨code, type, [], data⟩, s.nextPendingMessageSerial⟩
  .ok msg { s with
    nextPendingMessageSerial := u32 (s.nextPendingMessageSerial + 1)
    pendingMessages := s.pendingMessages ++ [msg] }

/-- What is swapped is where the two iterators point to, and not the messages. -/
def releasePendingMessage (handle : ℕ) : PendingM Unit := fun s =>
  if s.pendingMessages.any (·.handle = handle) then
    .ok () { s with pendingMessages := s.pendingMessages.dropLast }
  else .error unknownMessage s

end PendingMessages

open PendingMessages

def codeName : AuthorityName := nameOfCodes [3, 15, 4, 5]

/-! ## What a contract calls -/

section Calls

variable (ctx : MessageContext)

/-- The data is what is in the contract's memory. -/
def messageCreate (code : AccountName) (type : FuncName) (data : Bytes) : PendingM ℕ := do
  let pmsg ← createPendingMessage code type data
  pure pmsg.handle

/-- The permission "code" of the contract that runs is its own; any other must be the message's. -/
def checkPermission (auth : AccountAuth) : PendingM Unit := fun s =>
  if ¬ (auth.account = ctx.code ∧ auth.authority = codeName) ∧ auth ∉ ctx.msg.authorization then
    .error (.fc "Transaction is missing required authorization") s
  else .ok () s

def messageRequirePermission (handle : ℕ) (account : AccountName) (permission : AuthorityName) : PendingM Unit := do
  checkPermission ctx ⟨account, permission⟩
  let _ ← getPendingMessage handle
  modify fun s => { s with
    pendingMessages := modifyFound handle (.addAuthorization ⟨account, permission⟩) s.pendingMessages }

def messageSend (handle : ℕ) : PendingM Unit := do
  let pmsg ← getPendingMessage handle
  modify fun s => { s with inlineMessages := s.inlineMessages ++ [pmsg.toMessage] }
  releasePendingMessage handle

def messageDrop (handle : ℕ) : PendingM Unit := releasePendingMessage handle

inductive PendingCall
  | create (code : AccountName) (type : FuncName) (data : Bytes)
  | requirePermission (handle : ℕ) (account : AccountName) (permission : AuthorityName)
  | send (handle : ℕ)
  | drop (handle : ℕ)

/-- A call, and the handle that it returns. -/
def PendingCall.run : PendingCall → PendingM (Option ℕ)
  | .create code type data => do
    let handle ← messageCreate code type data
    pure (some handle)
  | .requirePermission handle account permission => do
    messageRequirePermission ctx handle account permission
    pure none
  | .send handle => do
    messageSend handle
    pure none
  | .drop handle => do
    messageDrop handle
    pure none

end Calls

/-! ## What handles are for -/

/-- The messages that are being prepared, by their handles. -/
abbrev Handles := ℕ → Option Message

/-- What a call does to them, where `returned` is the handle it returns. -/
def PendingCall.after (handles : Handles) : PendingCall → Option ℕ → Handles
  | .create code type data, some handle => Function.update handles handle (some ⟨code, type, [], data⟩)
  | .requirePermission handle account permission, _ => Function.update handles handle
    ((handles handle).map fun m => { m with authorization := m.authorization ++ [⟨account, permission⟩] })
  | .send handle, _ => Function.update handles handle none
  | .drop handle, _ => Function.update handles handle none
  | .create .., none => handles

/-- A handle that is returned is new, and any other that is passed is known. -/
def PendingCall.Known (handles : Handles) : PendingCall → Option ℕ → Prop
  | .create .., returned => ∃ handle, returned = some handle ∧ handles handle = none
  | .requirePermission handle .., _ => handles handle ≠ none
  | .send handle, _ => handles handle ≠ none
  | .drop handle, _ => handles handle ≠ none

/-- What a call may throw on: a permission, or a handle that is not known. -/
def PendingCall.MayThrow (handles : Handles) : PendingCall → Prop
  | .create .. => False
  | .requirePermission .. => True
  | .send handle => handles handle = none
  | .drop handle => handles handle = none

/-! ## What a call does -/

section Handles

variable {msgs : List PendingMessage} {msg : PendingMessage} {handle : ℕ}

/-- The message that `get_pending_message` finds for each handle. -/
def handlesOf (msgs : List PendingMessage) : Handles := fun handle =>
  (msgs.find? (·.handle = handle)).map (·.toMessage)

def PendingMessages.handles (s : PendingMessages) : Handles := handlesOf s.pendingMessages

def Distinct (msgs : List PendingMessage) : Prop := msgs.Pairwise fun a b => a.handle ≠ b.handle

theorem handlesOf_eq_none : handlesOf msgs handle = none ↔ ∀ m ∈ msgs, m.handle ≠ handle := by
  simp [handlesOf]

theorem handlesOf_cons :
    handlesOf (msg :: msgs) = Function.update (handlesOf msgs) msg.handle (some msg.toMessage) := by
  funext h
  rw [handlesOf, List.find?_cons, Function.update_apply]
  by_cases hh : msg.handle = h
  · simp [hh]
  · simp [hh, Ne.symm hh, handlesOf]

theorem handlesOf_concat (hnew : ∀ m ∈ msgs, m.handle ≠ msg.handle) :
    handlesOf (msgs ++ [msg]) = Function.update (handlesOf msgs) msg.handle (some msg.toMessage) := by
  induction msgs with
  | nil => exact handlesOf_cons
  | cons m msgs ih =>
    obtain ⟨hm, hrest⟩ := List.forall_mem_cons.1 hnew
    rw [List.cons_append, handlesOf_cons, ih hrest, handlesOf_cons, Function.update_comm hm]

theorem handlesOf_modifyFound {f : PendingMessage → PendingMessage} (hf : ∀ m, (f m).handle = m.handle) :
    handlesOf (modifyFound handle f msgs) =
      Function.update (handlesOf msgs) handle ((msgs.find? (·.handle = handle)).map fun m => (f m).toMessage) := by
  induction msgs with
  | nil => exact (Function.update_eq_self handle _).symm
  | cons m msgs ih =>
    rw [modifyFound, List.find?_cons]
    split_ifs with hm
    · subst hm
      rw [handlesOf_cons, hf, handlesOf_cons, Function.update_idem]
      simp
    · rw [handlesOf_cons, ih, handlesOf_cons, Function.update_comm hm]
      simp [hm]

/-- What is last is what the others do not have. -/
theorem handlesOf_dropLast_iff (h : Distinct (msgs ++ [msg])) :
    handlesOf msgs = Function.update (handlesOf (msgs ++ [msg])) handle none ↔ msg.handle = handle := by
  have hnew : ∀ m ∈ msgs, m.handle ≠ msg.handle := fun m hm =>
    (List.pairwise_append.1 h).2.2 m hm msg List.mem_cons_self
  rw [handlesOf_concat hnew]
  constructor
  · intro heq
    by_contra hne
    have hlast := congrFun heq msg.handle
    rw [handlesOf_eq_none.2 hnew, Function.update_of_ne hne, Function.update_self] at hlast
    cases hlast
  · rintro rfl
    rw [Function.update_idem, ← handlesOf_eq_none.2 hnew, Function.update_eq_self]

end Handles

section Step

variable {ctx : MessageContext} {s s' : PendingMessages} {call : PendingCall} {returned : Option ℕ} {handle : ℕ}

/-- The state before a call: what is released is the last message, and a serial that comes round again is not that of a
message still there. -/
def PendingCall.Last (s : PendingMessages) : PendingCall → Prop
  | .create .. => ∀ msg ∈ s.pendingMessages, msg.handle ≠ s.nextPendingMessageSerial
  | .requirePermission .. => True
  | .send handle => ∀ msg ∈ s.pendingMessages.getLast?, msg.handle = handle
  | .drop handle => ∀ msg ∈ s.pendingMessages.getLast?, msg.handle = handle

theorem getPendingMessage_ok {msg : PendingMessage} (h : getPendingMessage handle s = .ok msg s') :
    s.pendingMessages.find? (·.handle = handle) = some msg ∧ s' = s := by
  unfold getPendingMessage at h
  split at h
  · cases h
    exact ⟨‹_›, rfl⟩
  · cases h

theorem releasePendingMessage_ok {u : Unit} (h : releasePendingMessage handle s = .ok u s') :
    (∃ msg ∈ s.pendingMessages, msg.handle = handle) ∧
      s' = { s with pendingMessages := s.pendingMessages.dropLast } := by
  unfold releasePendingMessage at h
  split_ifs at h with hany
  cases h
  exact ⟨by simpa using hany, rfl⟩

theorem messageRequirePermission_ok {account : AccountName} {permission : AuthorityName} {u : Unit}
    (h : messageRequirePermission ctx handle account permission s = .ok u s') :
    (∃ msg, s.pendingMessages.find? (·.handle = handle) = some msg) ∧
      s' = { s with
        pendingMessages := modifyFound handle (.addAuthorization ⟨account, permission⟩) s.pendingMessages } := by
  obtain ⟨u₁, s₁, hcheck, hrest⟩ := run_bind_eq_ok.1 h
  unfold checkPermission at hcheck
  split_ifs at hcheck
  cases hcheck
  obtain ⟨msg, s₂, hget, hmodify⟩ := run_bind_eq_ok.1 hrest
  obtain ⟨hfind, rfl⟩ := getPendingMessage_ok hget
  cases hmodify
  exact ⟨⟨msg, hfind⟩, rfl⟩

theorem addAuthorization_handle {auth : AccountAuth} (m : PendingMessage) :
    (m.addAuthorization auth).handle = m.handle := rfl

theorem Distinct.modifyFound {msgs : List PendingMessage} {f : PendingMessage → PendingMessage}
    (hf : ∀ m, (f m).handle = m.handle) (h : Distinct msgs) : Distinct (modifyFound handle f msgs) := by
  have hmap : (PendingMessages.modifyFound handle f msgs).map (·.handle) = msgs.map (·.handle) := by
    clear h
    induction msgs with
    | nil => rfl
    | cons m msgs ih =>
      rw [PendingMessages.modifyFound]
      split_ifs
      · rw [List.map_cons, hf, List.map_cons]
      · rw [List.map_cons, ih, List.map_cons]
  rw [Distinct, ← List.pairwise_map (R := (· ≠ ·))] at h ⊢
  rwa [hmap]

/-- A release is right just if it takes out the message of the handle. -/
theorem released_iff (h : Distinct s.pendingMessages) (hmem : ∃ msg ∈ s.pendingMessages, msg.handle = handle) :
    s.handles handle ≠ none ∧ handlesOf s.pendingMessages.dropLast = Function.update s.handles handle none ↔
      ∀ msg ∈ s.pendingMessages.getLast?, msg.handle = handle := by
  obtain ⟨m, hm, hhandle⟩ := hmem
  have hknown : s.handles handle ≠ none := fun hnone => handlesOf_eq_none.1 hnone m hm hhandle
  rw [PendingMessages.handles]
  obtain ⟨init, last, hlast⟩ := (List.eq_nil_or_concat s.pendingMessages).resolve_left (List.ne_nil_of_mem hm)
  rw [List.concat_eq_append] at hlast
  rw [PendingMessages.handles, hlast] at hknown
  rw [hlast] at h ⊢
  rw [List.dropLast_concat, List.getLast?_concat, handlesOf_dropLast_iff h]
  simp [hknown]

/-- Each call does to the handles what it should, just if it is a call on the last message. -/
theorem PendingCall.step (h : Distinct s.pendingMessages) (hrun : call.run ctx s = .ok returned s') :
    (call.Known s.handles returned ∧ s'.handles = call.after s.handles returned ↔ call.Last s) ∧
      (call.Last s → Distinct s'.pendingMessages) := by
  cases call with
  | create code type data =>
    cases hrun
    refine ⟨⟨fun ⟨⟨handle, hreturned, hnone⟩, _⟩ => ?_, fun hlast => ?_⟩, fun hlast => ?_⟩
    · cases hreturned
      exact handlesOf_eq_none.1 hnone
    · exact ⟨⟨_, rfl, handlesOf_eq_none.2 hlast⟩, handlesOf_concat hlast⟩
    · exact List.pairwise_append.2 ⟨h, List.pairwise_singleton _ _, fun m hm m' hm' => by
        rw [List.mem_singleton.1 hm']
        exact hlast m hm⟩
  | requirePermission handle account permission =>
    obtain ⟨u, s₁, hextend, hpure⟩ := run_bind_eq_ok.1 hrun
    cases hpure
    obtain ⟨⟨msg, hfind⟩, rfl⟩ := messageRequirePermission_ok hextend
    have hknown : s.handles handle = some msg.toMessage := by
      rw [PendingMessages.handles, handlesOf, hfind]
      rfl
    refine ⟨⟨fun _ => trivial, fun _ => ⟨by rw [PendingCall.Known, hknown]; exact nofun, ?_⟩⟩, fun _ => ?_⟩
    · rw [PendingMessages.handles, handlesOf_modifyFound addAuthorization_handle, hfind, PendingCall.after, hknown]
      rfl
    · exact h.modifyFound addAuthorization_handle
  | send handle =>
    obtain ⟨u, s₁, hsend, hpure⟩ := run_bind_eq_ok.1 hrun
    cases hpure
    obtain ⟨pmsg, s₂, hget, hrest⟩ := run_bind_eq_ok.1 hsend
    obtain ⟨-, rfl⟩ := getPendingMessage_ok hget
    obtain ⟨u', s₃, hmodify, hrelease⟩ := run_bind_eq_ok.1 hrest
    cases hmodify
    obtain ⟨hmem, rfl⟩ := releasePendingMessage_ok hrelease
    exact ⟨released_iff h hmem, fun _ => h.sublist (List.dropLast_sublist _)⟩
  | drop handle =>
    obtain ⟨u, s₁, hdrop, hpure⟩ := run_bind_eq_ok.1 hrun
    cases hpure
    obtain ⟨hmem, rfl⟩ := releasePendingMessage_ok hdrop
    exact ⟨released_iff h hmem, fun _ => h.sublist (List.dropLast_sublist _)⟩

theorem run_bind_eq_error {α β : Type} {x : PendingM α} {f : α → PendingM β} {e : Fault} :
    (x >>= f) s = .error e s' ↔ x s = .error e s' ∨ ∃ a s₁, x s = .ok a s₁ ∧ f a s₁ = .error e s' := by
  rw [run_bind]
  cases x s <;> simp

theorem getPendingMessage_error {e : Fault} (h : getPendingMessage handle s = .error e s') :
    s.handles handle = none ∧ s' = s := by
  unfold getPendingMessage at h
  split at h
  · cases h
  · rename_i hfind
    cases h
    rw [PendingMessages.handles, handlesOf, hfind]
    exact ⟨rfl, rfl⟩

theorem releasePendingMessage_error {e : Fault} (h : releasePendingMessage handle s = .error e s') :
    s.handles handle = none ∧ s' = s := by
  unfold releasePendingMessage at h
  split_ifs at h with hany
  cases h
  exact ⟨handlesOf_eq_none.2 (by simpa using hany), rfl⟩

/-- A call that throws changes nothing. -/
theorem PendingCall.run_error {e : Fault} (hrun : call.run ctx s = .error e s') :
    call.MayThrow s.handles ∧ s' = s := by
  cases call with
  | create code type data => cases hrun
  | requirePermission handle account permission =>
    rcases run_bind_eq_error.1 hrun with hextend | ⟨_, _, -, hpure⟩
    · rcases run_bind_eq_error.1 hextend with hcheck | ⟨_, s₁, hcheck, hrest⟩
      · unfold checkPermission at hcheck
        split_ifs at hcheck
        cases hcheck
        exact ⟨trivial, rfl⟩
      · unfold checkPermission at hcheck
        split_ifs at hcheck
        cases hcheck
        rcases run_bind_eq_error.1 hrest with hget | ⟨_, _, -, hmodify⟩
        · exact ⟨trivial, (getPendingMessage_error hget).2⟩
        · cases hmodify
    · cases hpure
  | send handle =>
    rcases run_bind_eq_error.1 hrun with hsend | ⟨_, _, -, hpure⟩
    · rcases run_bind_eq_error.1 hsend with hget | ⟨pmsg, s₁, hget, hrest⟩
      · exact getPendingMessage_error hget
      · obtain ⟨hfind, rfl⟩ := getPendingMessage_ok hget
        rcases run_bind_eq_error.1 hrest with hmodify | ⟨_, s₂, hmodify, hrelease⟩
        · cases hmodify
        · cases hmodify
          -- the message that has just been found is there to be released
          obtain ⟨hnone, -⟩ := releasePendingMessage_error hrelease
          rw [PendingMessages.handles, handlesOf, hfind] at hnone
          cases hnone
    · cases hpure
  | drop handle =>
    rcases run_bind_eq_error.1 hrun with hdrop | ⟨_, _, -, hpure⟩
    · exact releasePendingMessage_error hdrop
    · cases hpure

end Step

/-! ## Sequences of calls -/

section Calls

variable (ctx : MessageContext)

/-- Along some calls the messages found by the handles are what the calls have made of them. A throw ends them. -/
def AllStable : Handles → PendingMessages → List PendingCall → Prop
  | _, _, [] => True
  | handles, s, call :: calls =>
    match call.run ctx s with
    | .error _ s' => call.MayThrow handles ∧ s'.handles = handles
    | .ok returned s' => call.Known handles returned ∧ s'.handles = call.after handles returned ∧
      AllStable (call.after handles returned) s' calls

def AllLast : PendingMessages → List PendingCall → Prop
  | _, [] => True
  | s, call :: calls =>
    match call.run ctx s with
    | .error _ _ => True
    | .ok _ s' => call.Last s ∧ AllLast s' calls

variable {ctx} {s : PendingMessages} {calls : List PendingCall}

theorem allStable_iff (h : Distinct s.pendingMessages) : AllStable ctx s.handles s calls ↔ AllLast ctx s calls := by
  induction calls generalizing s with
  | nil => exact Iff.rfl
  | cons call calls ih =>
    rw [AllStable, AllLast]
    rcases hrun : call.run ctx s with ⟨returned, s'⟩ | ⟨e, s'⟩
    · obtain ⟨hiff, hdistinct⟩ := PendingCall.step h hrun
      constructor
      · rintro ⟨hknown, hafter, hrest⟩
        have hlast := hiff.1 ⟨hknown, hafter⟩
        rw [← hafter] at hrest
        exact ⟨hlast, (ih (hdistinct hlast)).1 hrest⟩
      · rintro ⟨hlast, hrest⟩
        obtain ⟨hknown, hafter⟩ := hiff.2 hlast
        refine ⟨hknown, hafter, ?_⟩
        rw [← hafter]
        exact (ih (hdistinct hlast)).2 hrest
    · refine ⟨fun _ => trivial, fun _ => ?_⟩
      obtain ⟨hthrows, rfl⟩ := PendingCall.run_error hrun
      exact ⟨hthrows, rfl⟩

/-- The handles of a context are stable just if each release is of the message created last, as far as there
still is one. -/
theorem handles_stable_iff (ctx : MessageContext) (calls : List PendingCall) :
    AllStable ctx (fun _ => none) {} calls ↔ AllLast ctx {} calls :=
  allStable_iff (s := {}) .nil

def contextOfSeven : MessageContext := ⟨{}, ⟨7, .transfer, [], []⟩, 7, 0⟩

/-- Of two messages the first is dropped, and the second is gone. -/
theorem other_message_dropped :
    ¬ AllStable contextOfSeven (fun _ => none) {}
      [.create 7 .transfer [1], .create 7 .transfer [2], .drop 0] := by
  intro hstable
  obtain ⟨-, -, hlast, -⟩ := (allStable_iff (s := {}) .nil).1 hstable
  exact absurd (hlast ⟨⟨7, .transfer, [], [2]⟩, 1⟩ rfl) (by decide)

end Calls

end XmaxChain
