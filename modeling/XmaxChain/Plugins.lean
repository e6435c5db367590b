import XmaxChain.Lib.DepthFirst

/-!
# Starting and stopping the plugins

A plugin is initialised after those that it requires, and started in the same way; what was started is
stopped in reverse. The program registers its plugins, initialises those that are asked for, and starts
what was initialised.
-/

namespace XmaxChain

open DepthFirst Fuel

/-- plugin.hpp `abstract_plugin::state`. -/
inductive PluginState
  | registered
  | initialized
  | running
  | stopped
  deriving DecidableEq, Repr

/-- The classes of the plugins: what each requires, and what its hooks do to the rest of the program. -/
structure PluginHooks (P W ε : Type) where
  pluginRequires : P → List P
  pluginInitialize : P → W → Except ε W
  pluginStartup : P → W → Except ε W
  pluginShutdown : P → W → Except ε W

/-- application.hpp `application`. -/
structure Application (P W : Type) where
  plugins : P → Option PluginState
  initializedPlugins : List P
  runningPlugins : List P
  world : W

inductive StartError (P ε : Type)
  | unknownPlugin (name : P)
  | assertion
  | hook (e : ε)
  deriving DecidableEq, Repr

section Model

variable {P W ε : Type} [DecidableEq P]

def Application.empty (w : W) : Application P W := ⟨fun _ => none, [], [], w⟩

def Application.setState (app : Application P W) (p : P) (state : PluginState) : Application P W :=
  { app with plugins := Function.update app.plugins p (some state) }

/-- application.hpp `plugin_inited`. -/
def Application.pluginInited (p : P) (app : Application P W) : Application P W :=
  { app with initializedPlugins := app.initializedPlugins ++ [p] }

/-- application.hpp `plugin_started`. -/
def Application.pluginStarted (p : P) (app : Application P W) : Application P W :=
  { app with runningPlugins := app.runningPlugins ++ [p] }

namespace PluginHooks

variable (h : PluginHooks P W ε)

/-- application.hpp `register_plugin`, with the plugins that are not there yet. -/
def registerPlugin : Search P (Application P W) (StartError P ε) where
  next := h.pluginRequires
  enter p app := .ok (if (app.plugins p).isSome then none else some (app.setState p .registered))
  leave _ app := .ok app

/-- A plugin that is in the state `before` comes to `after`, then those that it requires do, and then its
hook is called. At the end it is in the state `after`. -/
def advance (before after : PluginState) (hook : P → W → Except ε W)
    (note : P → Application P W → Application P W) : Search P (Application P W) (StartError P ε) where
  next := h.pluginRequires
  enter p app :=
    if app.plugins p = some before then .ok (some (app.setState p after))
    else if app.plugins p = some after then .ok none
    else .error .assertion
  leave p app :=
    match hook p app.world with
    | .error e => .error (.hook e)
    | .ok world =>
      let app := note p { app with world }
      if app.plugins p = some after then .ok app else .error .assertion

/-- application.hpp `plugin::init`. -/
def init : Search P (Application P W) (StartError P ε) :=
  h.advance .registered .initialized h.pluginInitialize Application.pluginInited

/-- application.hpp `plugin::startup`. -/
def startup : Search P (Application P W) (StartError P ε) :=
  h.advance .initialized .running h.pluginStartup Application.pluginStarted

/-- application.hpp `plugin::shutdown`. -/
def shutdown (p : P) (app : Application P W) : Except ε (Application P W) :=
  if app.plugins p = some .running then do
    let app := app.setState p .stopped
    let world ← h.pluginShutdown p app.world
    pure { app with world }
  else pure app

end PluginHooks

namespace Application

variable (h : PluginHooks P W ε)

/-- application.cpp `init_impl`, from the names that the options give. -/
def initImpl (fuel : ℕ) (names autostart : List P) (app : Application P W) :
    Fueled (StartError P ε) (Application P W) := do
  let app ← names.foldlM (fun app name =>
    if (app.plugins name).isSome then visit h.init fuel name app else throw (.unknownPlugin name)) app
  autostart.foldlM (fun app p =>
    if app.plugins p = some .registered then visit h.init fuel p app else pure app) app

/-- application.cpp `startup`. -/
def startup (fuel : ℕ) (app : Application P W) : Fueled (StartError P ε) (Application P W) :=
  visitAll h.startup fuel app.initializedPlugins app

/-- application.cpp `shutdown`. -/
def shutdown (app : Application P W) : Except ε (Application P W) := do
  let app ← app.runningPlugins.reverse.foldlM (fun app p => h.shutdown p app) app
  pure { app with plugins := fun _ => none, initializedPlugins := [], runningPlugins := [] }

/-- launch/xmaxrun/main.cpp `main`, until the program runs. -/
def launch (fuel : ℕ) (plugins names autostart : List P) (w : W) :
    Fueled (StartError P ε) (Application P W) := do
  let app ← visitAll h.registerPlugin fuel plugins (.empty w)
  let app ← app.initImpl h fuel names autostart
  app.startup h fuel

end Application

end Model

/-- Noting a plugin adds it to those that are done, and changes nothing else that is used here. -/
structure Notes {P W : Type} (note : P → Application P W → Application P W)
    (done rest : Application P W → List P) : Prop where
  plugins_note : ∀ p app, (note p app).plugins = app.plugins
  world_note : ∀ p app, (note p app).world = app.world
  done_note : ∀ p app, done (note p app) = done app ++ [p]
  rest_note : ∀ p app, rest (note p app) = rest app
  done_frame : ∀ (app : Application P W) plugins world, done { app with plugins, world } = done app
  rest_frame : ∀ (app : Application P W) plugins world, rest { app with plugins, world } = rest app

theorem notes_inited {P W : Type} :
    Notes Application.pluginInited (Application.initializedPlugins (P := P) (W := W))
      Application.runningPlugins :=
  ⟨fun _ _ => rfl, fun _ _ => rfl, fun _ _ => rfl, fun _ _ => rfl, fun _ _ _ => rfl, fun _ _ _ => rfl⟩

theorem notes_started {P W : Type} :
    Notes Application.pluginStarted (Application.runningPlugins (P := P) (W := W))
      Application.initializedPlugins :=
  ⟨fun _ _ => rfl, fun _ _ => rfl, fun _ _ => rfl, fun _ _ => rfl, fun _ _ _ => rfl, fun _ _ _ => rfl⟩

/-- The plugins that are registered with those that are listed. -/
abbrev Registered {P W ε : Type} (h : PluginHooks P W ε) (plugins : List P) : Set P :=
  {p | ∃ r ∈ plugins, Reach h.pluginRequires r p}

theorem registered_closed {P W ε : Type} {h : PluginHooks P W ε} {plugins : List P} :
    ∀ p ∈ Registered h plugins, ∀ d ∈ h.pluginRequires p, d ∈ Registered h plugins :=
  fun _ ⟨r, hr, hreach⟩ _ hd => ⟨r, hr, hreach.tail hd⟩

section Stage

variable {P W ε : Type} [DecidableEq P] {h : PluginHooks P W ε} {before after : PluginState}
  {hook : P → W → Except ε W} {note : P → Application P W → Application P W}

theorem registerPlugin_marks : Marks h.registerPlugin fun app => {p | (app.plugins p).isSome} where
  enter_none {p app} henter := by
    by_cases hp : (app.plugins p).isSome
    · exact hp
    · simp [PluginHooks.registerPlugin, hp] at henter
  enter_some {p app app'} henter := by
    by_cases hp : (app.plugins p).isSome
    · simp [PluginHooks.registerPlugin, hp] at henter
    · obtain rfl : app.setState p .registered = app' := by simpa [PluginHooks.registerPlugin, hp] using henter
      refine ⟨hp, Set.ext fun q => ?_⟩
      by_cases hq : q = p <;> simp [Application.setState, hq]
  leave hleave := by
    cases hleave
    rfl

theorem advance_enter (p : P) (app : Application P W) : (h.advance before after hook note).enter p app =
    if app.plugins p = some before then .ok (some (app.setState p after))
    else if app.plugins p = some after then .ok none else .error .assertion := rfl

theorem advance_enter_some {p : P} {app app' : Application P W} :
    (h.advance before after hook note).enter p app = .ok (some app') ↔
      app.plugins p = some before ∧ app' = app.setState p after := by
  rw [advance_enter]
  split_ifs with hbefore <;> simp [hbefore, eq_comm]

theorem advance_leave (hnote : ∀ p app, (note p app).plugins = app.plugins) {p : P} {app : Application P W}
    (hp : app.plugins p = some after) : (h.advance before after hook note).leave p app =
      ((hook p app.world).mapError .hook).map fun world => note p { app with world } := by
  rw [PluginHooks.advance]
  dsimp only
  rcases hook p app.world with e | world
  · rfl
  · simp only [hnote, hp, ↓reduceIte]
    rfl

theorem advance_leave_ok {p : P} {app app' : Application P W}
    (hleave : (h.advance before after hook note).leave p app = .ok app') :
    ∃ world, hook p app.world = .ok world ∧ app' = note p { app with world } := by
  rw [PluginHooks.advance] at hleave
  dsimp only at hleave
  rcases hhook : hook p app.world with e | world
  · simp [hhook] at hleave
  · simp only [hhook] at hleave
    split_ifs at hleave
    cases hleave
    exact ⟨world, rfl, rfl⟩

theorem advance_marks (hne : before ≠ after) (hnote : ∀ p app, (note p app).plugins = app.plugins) :
    Marks (h.advance before after hook note) fun app => {p | app.plugins p = some after} where
  enter_none {p app} henter := by
    rw [advance_enter] at henter
    split_ifs at henter with hbefore hafter
    · cases henter
    · exact hafter
  enter_some {p app app'} henter := by
    obtain ⟨hbefore, rfl⟩ := advance_enter_some.1 henter
    refine ⟨fun hafter => hne (Option.some.inj (hbefore.symm.trans hafter)), Set.ext fun q => ?_⟩
    by_cases hq : q = p <;> simp [Application.setState, hq]
  leave hleave := by
    obtain ⟨world, -, rfl⟩ := advance_leave_ok hleave
    rw [hnote]

/-- Among the plugins of `U`, some are in the state `before` and some in the state `after`; the hooks of
those that are done have been called in their order. -/
structure Stage (before after : PluginState) (hook : P → W → Except ε W) (done rest : Application P W → List P)
    (U : Set P) (others : P → Option PluginState) (kept : List P) (w : W) (app : Application P W) : Prop where
  states : ∀ p ∈ U, app.plugins p = some before ∨ app.plugins p = some after
  others : ∀ p, p ∉ U → app.plugins p = others p
  kept : rest app = kept
  ran : (done app).foldlM (fun w p => hook p w) w = .ok app.world

variable {done rest : Application P W → List P} {U : Set P} {others : P → Option PluginState} {kept : List P}
  {w : W}

theorem advance_keeps (hn : Notes note done rest) (hclosed : ∀ p ∈ U, ∀ d ∈ h.pluginRequires p, d ∈ U) :
    StaysIn (h.advance before after hook note) (fun app => {p | app.plugins p = some after}) U
      (Stage before after hook done rest U others kept w) fun e => ∃ e', e = .hook e' where
  closed := hclosed
  enter {p app app'} hp hs henter := by
    obtain ⟨-, rfl⟩ := advance_enter_some.1 henter
    refine ⟨fun q hq => ?_, fun q hq => ?_, (hn.rest_frame app _ app.world).trans hs.kept, ?_⟩
    · by_cases hqp : q = p
      · simp [Application.setState, hqp]
      · simpa [Application.setState, hqp] using hs.states q hq
    · have hqp : q ≠ p := fun heq => hq (heq ▸ hp)
      simpa [Application.setState, hqp] using hs.others q hq
    · exact (hn.done_frame app _ app.world).symm ▸ hs.ran
  leave {p app app'} _ hs hleave := by
    obtain ⟨world, hhook, rfl⟩ := advance_leave_ok hleave
    refine ⟨fun q hq => ?_, fun q hq => ?_, ?_, ?_⟩
    · rw [hn.plugins_note]
      exact hs.states q hq
    · rw [hn.plugins_note]
      exact hs.others q hq
    · exact (hn.rest_note ..).trans ((hn.rest_frame app app.plugins world).trans hs.kept)
    · rw [hn.done_note, hn.world_note, List.foldlM_append, hn.done_frame app app.plugins world, hs.ran]
      exact (bind_pure _).trans hhook
  enter_throws {p app e} hp hs henter := by
    rw [advance_enter] at henter
    split_ifs at henter with hbefore hafter
    exact absurd (hs.states p hp) (by simp [hbefore, hafter])
  leave_throws {p app e} hp hs hleave := by
    rw [advance_leave hn.plugins_note hp] at hleave
    rcases hhook : hook p app.world with e' | world
    · rw [hhook] at hleave
      cases hleave
      exact ⟨e', rfl⟩
    · rw [hhook] at hleave
      cases hleave

theorem init_marks : Marks h.init fun app => {p | app.plugins p = some .initialized} :=
  advance_marks (by decide) fun _ _ => rfl

theorem startup_marks : Marks h.startup fun app => {p | app.plugins p = some .running} :=
  advance_marks (by decide) fun _ _ => rfl

theorem init_ordered : Ordered h.init Application.initializedPlugins where
  enter_some henter := by
    obtain ⟨-, rfl⟩ := advance_enter_some.1 henter
    rfl
  leave hleave := by
    obtain ⟨world, -, rfl⟩ := advance_leave_ok hleave
    rfl

theorem startup_ordered : Ordered h.startup Application.runningPlugins where
  enter_some henter := by
    obtain ⟨-, rfl⟩ := advance_enter_some.1 henter
    rfl
  leave hleave := by
    obtain ⟨world, -, rfl⟩ := advance_leave_ok hleave
    rfl

section Launch

variable {plugins names autostart : List P} {fuel : ℕ} (hfinite : (Registered h plugins).Finite)
  (hfuel : (Registered h plugins).ncard < fuel)

/-- Nothing is initialised yet. -/
theorem registerPlugin_keeps : StaysIn h.registerPlugin (fun app => {p | (app.plugins p).isSome})
    (Registered h plugins) (fun app => (∀ p, app.plugins p = none ∨ app.plugins p = some .registered) ∧
      app.initializedPlugins = [] ∧ app.runningPlugins = [] ∧ app.world = w) (fun _ => False) where
  closed := registered_closed
  enter {p app app'} _ hs henter := by
    by_cases hp : (app.plugins p).isSome
    · simp [PluginHooks.registerPlugin, hp] at henter
    · obtain rfl : app.setState p .registered = app' := by simpa [PluginHooks.registerPlugin, hp] using henter
      refine ⟨fun q => ?_, hs.2⟩
      by_cases hq : q = p
      · simp [Application.setState, hq]
      · simpa [Application.setState, hq] using hs.1 q
  leave _ hs hleave := by
    cases hleave
    exact hs
  enter_throws _ _ henter := by cases henter
  leave_throws _ _ hleave := by cases hleave

/-- The plugins that are there are initialised, or wait for it. -/
abbrev Initialising (h : PluginHooks P W ε) (plugins : List P) (w : W) : Application P W → Prop :=
  Stage .registered .initialized h.pluginInitialize Application.initializedPlugins Application.runningPlugins
    (Registered h plugins) (fun _ => none) [] w

include hfinite hfuel in
theorem register_ends : Ends (fun app => Initialising h plugins w app ∧ app.initializedPlugins = [] ∧
      ∀ p, app.plugins p ≠ some .initialized) (fun _ => False)
    (visitAll h.registerPlugin fuel plugins (.empty w)) := by
  have hends := registerPlugin_marks.ends_all (registerPlugin_keeps (w := w)) hfinite hfuel
    (fun p hp => ⟨p, hp, .refl⟩) (s := .empty w) ⟨fun _ => .inl rfl, rfl, rfl, rfl⟩
  refine (hends.returns fun app happ => registerPlugin_marks.explored_all happ).mono
    fun app ⟨⟨hstates, hinit, hrunning, hworld⟩, new, hnew⟩ => ?_
  have hseen : ∀ p, (app.plugins p).isSome ↔ p ∈ Registered h plugins := fun p =>
    (hnew.seen_iff (by simp [Application.empty])).trans
      (by simp [Application.empty, PluginHooks.registerPlugin])
  refine ⟨⟨fun p hp => ?_, fun p hp => ?_, hrunning, ?_⟩, hinit, fun p hp => ?_⟩
  · rcases hstates p with hnone | hsome
    · exact absurd ((hseen p).2 hp) (by simp [hnone])
    · exact .inl hsome
  · rcases hstates p with hnone | hsome
    · exact hnone
    · exact absurd ((hseen p).1 (by simp [hsome])) hp
  · rw [hinit, hworld]
    rfl
  · rcases hstates p with hnone | hsome
    · rw [hnone] at hp
      cases hp
    · rw [hsome] at hp
      cases hp

/-- What stops the start: a name that is not known, or what a hook throws. -/
def Stopped (h : PluginHooks P W ε) (plugins names : List P) (e : StartError P ε) : Prop :=
  (∃ name ∈ names, name ∉ Registered h plugins ∧ e = .unknownPlugin name) ∨ ∃ e', e = .hook e'

variable {app app' : Application P W}

omit [DecidableEq P] in
theorem Initialising.isSome (hs : Initialising h plugins w app) {p : P} :
    (app.plugins p).isSome ↔ p ∈ Registered h plugins := by
  refine ⟨fun hp => ?_, fun hp => ?_⟩
  · by_contra hnot
    simp [hs.others p hnot] at hp
  · rcases hs.states p hp with hp | hp <;> simp [hp]

include hfinite hfuel in
theorem Initialising.init_ends (hs : Initialising h plugins w app) {p : P} (hp : p ∈ Registered h plugins) :
    Ends (Initialising h plugins w) (fun e => ∃ e', e = .hook e') (visit h.init fuel p app) :=
  init_marks.ends (advance_keeps notes_inited registered_closed) hfinite hfuel hp hs

/-- The names are visited, and then those of the others that are registered. -/
def visited (app : Application P W) (names autostart : List P) : List P :=
  names ++ autostart.filter fun p => (app.plugins p).isSome

include hfinite hfuel in
theorem initImpl_ends (hs : Initialising h plugins w app) : Ends (fun app' => Initialising h plugins w app' ∧
      (visitAll h.init fuel (visited app names autostart) app).run = some (.ok app'))
    (Stopped h plugins names) (app.initImpl h fuel names autostart) := by
  have hnamed : Ends (fun app₁ => Initialising h plugins w app₁ ∧
      (visitAll h.init fuel names app).run = some (.ok app₁)) (Stopped h plugins names)
      (names.foldlM (fun app name =>
        if (app.plugins name).isSome then visit h.init fuel name app
        else throw (.unknownPlugin name)) app) := by
    refine (ends_foldlM hs fun name hname app hs => ?_).returns fun app₁ h₁ => ?_
    · split_ifs with hsome
      · exact (hs.init_ends hfinite hfuel (hs.isSome.1 hsome)).throws fun _ => .inr
      · exact .inr ⟨_, rfl, .inl ⟨name, hname, fun hp => hsome (hs.isSome.2 hp), rfl⟩⟩
    · have hvisits : (visitAll h.init fuel (names.filter fun _ => true) app).run = some (.ok app₁) := by
        refine visits_of_steps (fun _ => True) _ trivial (fun name _ app app₁ _ h₁ => ?_) h₁
        refine ⟨trivial, fun _ => ?_, fun hq => by cases hq⟩
        split_ifs at h₁ with hsome
        · exact h₁
        · cases h₁
      rwa [List.filter_true] at hvisits
  refine hnamed.bind fun app₁ ⟨hs₁, h₁⟩ => ?_
  refine (ends_foldlM hs₁ fun p _ app hs => ?_).returns fun app' h' => ?_
  · split_ifs with hregistered
    · have hp : p ∈ Registered h plugins := hs.isSome.1 (by simp [hregistered])
      exact (hs.init_ends hfinite hfuel hp).throws fun _ => .inr
    · exact ends_pure hs
  · refine visitAll_append_returns.2 ⟨app₁, h₁, visits_of_steps _ _ hs₁ (fun p _ app₂ app₃ hs₂ h₂ => ?_) h'⟩
    rw [Bool.eq_false_iff, Ne, hs.isSome, ← hs₂.isSome]
    split_ifs at h₂ with hregistered
    · have hp : p ∈ Registered h plugins := hs₂.isSome.1 (by simp [hregistered])
      exact ⟨(hs₂.init_ends hfinite hfuel hp).good h₂, fun _ => h₂,
        fun hnone => by simp [hregistered] at hnone⟩
    · cases h₂
      refine ⟨hs₂, fun hsome => ?_, fun _ => rfl⟩
      -- a plugin that is not waiting is initialised, and stays as it is
      obtain ⟨fuel, rfl⟩ := Nat.exists_eq_add_of_lt hfuel
      have hdone := (hs₂.states p (hs₂.isSome.1 hsome)).resolve_left hregistered
      refine visit_returns.2 (.inl ⟨?_, rfl⟩)
      simp [PluginHooks.init, advance_enter, hdone]

/-- The plugins of `order` are initialised, and start in that order. -/
abbrev Starting (h : PluginHooks P W ε) (order : List P) (others : P → Option PluginState) (w : W) :
    Application P W → Prop :=
  Stage .initialized .running h.pluginStartup Application.runningPlugins Application.initializedPlugins
    {p | p ∈ order} others order w

/-- The plugins that run are stopped one after another. -/
theorem shutdown_world {l : List P} (hl : l.Nodup) (hrunning : ∀ p ∈ l, app.plugins p = some .running) :
    (l.foldlM (fun app p => h.shutdown p app) app).map Application.world =
      l.foldlM (fun w p => h.pluginShutdown p w) app.world := by
  induction l generalizing app with
  | nil => rfl
  | cons p l ih =>
    obtain ⟨hp, hl⟩ := List.nodup_cons.1 hl
    have hshutdown : h.shutdown p app =
        (h.pluginShutdown p app.world).map fun world => { app.setState p .stopped with world } := by
      rw [PluginHooks.shutdown, if_pos (hrunning p List.mem_cons_self)]
      rcases hw : h.pluginShutdown p app.world with e | world <;> simp [Application.setState, hw] <;> rfl
    rw [List.foldlM_cons, List.foldlM_cons, hshutdown]
    rcases h.pluginShutdown p app.world with e | world
    · rfl
    · refine ih hl fun q hq => ?_
      have hqp : q ≠ p := fun heq => hp (heq ▸ hq)
      simpa [Application.setState, hqp] using hrunning q (List.mem_cons_of_mem p hq)

/-- How the program is started, and how it will be stopped: `order` has the plugins that are asked for and
those that they require, each after those that it requires. -/
structure StartedIn (h : PluginHooks P W ε) (plugins names autostart : List P) (w : W) (order : List P)
    (app : Application P W) : Prop where
  known : ∀ p ∈ order, p ∈ Registered h plugins
  asked : ∀ p, p ∈ order ↔
    ∃ q, (q ∈ names ∨ q ∈ autostart ∧ q ∈ Registered h plugins) ∧ Reach h.pluginRequires q p
  ready : Ready h.pluginRequires ∅ order
  started : ∃ w', order.foldlM (fun w p => h.pluginInitialize p w) w = .ok w' ∧
    order.foldlM (fun w p => h.pluginStartup p w) w' = .ok app.world
  stopped : ∀ w', (Application.shutdown h { app with world := w' }).map Application.world =
    order.reverse.foldlM (fun w p => h.pluginShutdown p w) w'

omit [DecidableEq P] in
theorem mem_visited (hs : Initialising h plugins w app) {q : P} : q ∈ visited app names autostart ↔
    q ∈ names ∨ q ∈ autostart ∧ q ∈ Registered h plugins := by
  rw [visited, List.mem_append, List.mem_filter, hs.isSome]

omit [DecidableEq P] in
theorem Initialising.not_running (hs : Initialising h plugins w app) (p : P) :
    app.plugins p ≠ some .running := by
  by_cases hp : p ∈ Registered h plugins
  · rcases hs.states p hp with hstate | hstate <;> simp [hstate]
  · simp [hs.others p hp]

theorem application_shutdown (hnodup : app.runningPlugins.Nodup)
    (hrunning : ∀ p ∈ app.runningPlugins, app.plugins p = some .running) :
    (app.shutdown h).map Application.world =
      app.runningPlugins.reverse.foldlM (fun w p => h.pluginShutdown p w) app.world := by
  rw [← shutdown_world (List.nodup_reverse.2 hnodup) fun p hp => hrunning p (List.mem_reverse.1 hp),
    Application.shutdown]
  rcases app.runningPlugins.reverse.foldlM (fun app p => h.shutdown p app) app with e | app' <;> rfl

include hfinite hfuel in
theorem startup_ends {order : List P} (hs : Initialising h plugins w app)
    (hready : Ready h.pluginRequires ∅ order)
    (hknown : ∀ p ∈ order, p ∈ Registered h plugins) (hinit : app.initializedPlugins = order)
    (hstates : ∀ p ∈ order, app.plugins p = some .initialized) :
    Ends (fun app' => order.foldlM (fun w p => h.pluginStartup p w) app.world = .ok app'.world ∧
        app'.runningPlugins = order ∧ ∀ p ∈ order, app'.plugins p = some .running)
      (fun e => ∃ e', e = .hook e') (app.startup h fuel) := by
  have hclosed : ∀ p ∈ order, ∀ d ∈ h.pluginRequires p, d ∈ order := fun p hp d hd => by
    obtain ⟨before, after, rfl⟩ := List.append_of_mem hp
    exact List.mem_append_left _ ((hready.before rfl hd).resolve_left (Set.notMem_empty d))
  have hstage : Starting h order app.plugins app.world app :=
    ⟨fun p hp => .inl (hstates p hp), fun _ _ => rfl, hinit, by rw [hs.kept]; rfl⟩
  have hcard : {p | p ∈ order}.ncard < fuel := (Set.ncard_le_ncard hknown hfinite).trans_lt hfuel
  have hseen : {p | app.plugins p = some .running} = ∅ :=
    Set.eq_empty_of_forall_notMem fun p hp => hs.not_running p hp
  rw [Application.startup, hinit]
  have hends := startup_marks.ends_all (advance_keeps notes_started hclosed) order.finite_toSet hcard
    (fun _ hp => hp) hstage
  have hreturns : ∀ app', (visitAll h.startup fuel order app).run = some (.ok app') →
      app'.runningPlugins = order ∧ ∀ p ∈ order, app'.plugins p = some .running := fun app' h' => by
    obtain ⟨new, hnew⟩ := startup_marks.explored_all h'
    refine ⟨?_, hnew.all⟩
    rw [startup_marks.visitAll_ready startup_ordered (by rwa [hseen]) h', hs.kept]
    rfl
  exact (hends.returns hreturns).mono fun app' ⟨hs', horder, hrunning⟩ => ⟨horder ▸ hs'.ran, horder, hrunning⟩

/-- Where the dependencies have no cycle the start ends: the plugins that were asked for and what they
require have gone through their hooks in one order, or a name is unknown or a hook has thrown. -/
theorem plugins_start_in_order {P W ε : Type} [DecidableEq P] {h : PluginHooks P W ε}
    (hacyclic : Acyclic h.pluginRequires) {plugins names autostart : List P} {fuel : ℕ}
    (hfinite : (Registered h plugins).Finite) (hfuel : (Registered h plugins).ncard < fuel) (w : W) :
    Ends (fun app => ∃ order, StartedIn h plugins names autostart w order app) (Stopped h plugins names)
      (Application.launch h fuel plugins names autostart w) := by
  refine ((register_ends hfinite hfuel).throws fun _ hfalse => hfalse.elim).bind
    fun app ⟨hs, hinit, hnone⟩ => (initImpl_ends hfinite hfuel hs).bind fun app₁ ⟨hs₁, h₁⟩ => ?_
  obtain ⟨order, horder⟩ := init_marks.explored_all h₁
  have hseen : {p | app.plugins p = some .initialized} = ∅ :=
    Set.eq_empty_of_forall_notMem fun p hp => hnone p hp
  have hstates : ∀ p, app₁.plugins p = some .initialized ↔ p ∈ order := fun p => by
    have heq := horder.seen_eq
    rw [hseen, Set.empty_union] at heq
    exact Set.ext_iff.1 heq p
  have hready : Ready h.pluginRequires ∅ order := by
    have hvisited := horder.visited
    rw [hseen] at hvisited
    exact hvisited.ready hacyclic
  have hinitialized : app₁.initializedPlugins = order := by
    rw [horder.order_eq _ init_ordered, hinit, List.nil_append]
  have hknown : ∀ p ∈ order, p ∈ Registered h plugins := fun p hp => hs₁.isSome.1 (by simp [(hstates p).2 hp])
  refine ((startup_ends hfinite hfuel hs₁ hready hknown hinitialized fun p => (hstates p).2).throws
    fun _ => .inr).mono fun app₂ ⟨hworld, hrunning, hstates₂⟩ =>
    ⟨order, hknown, fun p => ?_, hready, ⟨app₁.world, hinitialized ▸ hs₁.ran, hworld⟩, fun w' => ?_⟩
  · rw [← hstates, show app₁.plugins p = some .initialized ↔ _ from horder.seen_iff (by simp [hseen])]
    simp only [hseen, mem_visited hs, Set.mem_empty_iff_false, false_or]
    rfl
  · rw [application_shutdown (hrunning ▸ hready.nodup) (hrunning ▸ hstates₂), hrunning]

end Launch

end Stage

section Xmaxrun

/-- The plugins of xmaxrun. -/
inductive XmaxPlugin
  | blockchain
  | blockbuilder
  | chainhttp
  | chainnet
  | contractutil
  | mongodb
  deriving DecidableEq, Repr

namespace XmaxPlugin

/-- What each names in its `BASEAPP_DEPEND_PLUGINS`. -/
def pluginRequires : XmaxPlugin → List XmaxPlugin
  | blockchain => [chainhttp]
  | blockbuilder => [blockchain]
  | chainhttp => []
  | chainnet => [blockchain]
  | contractutil => [chainhttp, blockchain]
  | mongodb => []

/-- launch/xmaxrun/main.cpp `regist_plugins`. -/
def registPlugins : List XmaxPlugin := [chainhttp, chainnet, blockchain, blockbuilder, contractutil, mongodb]

theorem mem_registPlugins (p : XmaxPlugin) : p ∈ registPlugins := by
  cases p <;> decide

/-- How many plugins stand under one. -/
def rank : XmaxPlugin → ℕ
  | chainhttp => 0
  | mongodb => 0
  | blockchain => 1
  | blockbuilder => 2
  | chainnet => 2
  | contractutil => 2

theorem pluginRequires_acyclic : Acyclic pluginRequires := by
  refine acyclic_of_rank rank fun a b hb => ?_
  cases a <;> cases b <;> revert hb <;> decide

/-- Hooks that only write down that they were called. -/
def hooks : PluginHooks XmaxPlugin (List (String × XmaxPlugin)) Unit where
  pluginRequires := pluginRequires
  pluginInitialize p calls := .ok (calls ++ [("initialize", p)])
  pluginStartup p calls := .ok (calls ++ [("startup", p)])
  pluginShutdown p calls := .ok (calls ++ [("shutdown", p)])

end XmaxPlugin

open XmaxPlugin in
theorem plugins_start_in_order_xmaxrun :
    Ends (fun app => ∃ order, StartedIn hooks registPlugins [blockbuilder, chainnet] [blockchain] [] order app)
      (Stopped hooks registPlugins [blockbuilder, chainnet])
      (Application.launch hooks 7 registPlugins [blockbuilder, chainnet] [blockchain] []) := by
  have hsubset : Registered hooks registPlugins ⊆ registPlugins.toFinset :=
    fun p _ => by simpa using mem_registPlugins p
  have hcard := Set.ncard_le_ncard hsubset (Finset.finite_toSet _)
  rw [Set.ncard_coe_finset] at hcard
  exact plugins_start_in_order pluginRequires_acyclic ((Finset.finite_toSet _).subset hsubset)
    (hcard.trans_lt (by decide)) []

open XmaxPlugin in
example : (result (Application.launch hooks 7 registPlugins [blockbuilder, chainnet] [blockchain]
    [])).map (·.world) =
    some [("initialize", chainhttp), ("initialize", blockchain), ("initialize", blockbuilder),
      ("initialize", chainnet), ("startup", chainhttp), ("startup", blockchain), ("startup", blockbuilder),
      ("startup", chainnet)] := by decide

end Xmaxrun

end XmaxChain
