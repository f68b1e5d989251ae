import Wayfarer.Proofs.Settings.Shuffling

/-!
# Partial documents

The settings of a host and of its realm are forms (`Settings.hostForm`,
`Settings.realmForm`), so a document that gives some of the fields is read as
the defaults overlaid with them (`Settings.HostTold`), in whatever way it is
written. Neither the order of entries nor entries of other names make a
difference (`Settings.Restated`), and a field that is given twice makes the
document malformed (`Settings.Repeats`). `Settings.partial_documents` puts this
together for what is loaded from a store.
-/

namespace Wayfarer

namespace Settings

open Json Reader

/-! ## The forms of the settings -/

/-- The fields of a realm's settings. -/
def realmSlots : List (Slot RealmSlots) :=
  [⟨_, "cache_ttl_ms", Tree.natural?, (·.cacheTtl), fun s n => { s with cacheTtl := some n }⟩,
    ⟨_, "cache_capacity", Tree.natural?, (·.cacheCapacity),
      fun s n => { s with cacheCapacity := some n }⟩,
    ⟨_, "walk_budget_ms", Tree.optional?, (·.walkBudget),
      fun s n => { s with walkBudget := some n }⟩,
    ⟨_, "max_walk_steps", Tree.optional?, (·.maxWalkSteps),
      fun s n => { s with maxWalkSteps := some n }⟩,
    ⟨_, "id_seed", Tree.text?, (·.idSeed), fun s text => { s with idSeed := some text }⟩]

/-- The settings of a realm as a form. -/
def realmForm : Form RealmSlots where
  slots := realmSlots
  name_inj := by
    simp [realmSlots]
  get_set := by
    simp [realmSlots]
  get_set_of_ne := by
    simp [realmSlots]
  ext := by
    rintro ⟨⟩ ⟨⟩ h
    simpa [realmSlots] using h

/-- What a value says of a realm's settings. -/
def realm? (t : Tree) : Option RealmConfig :=
  (t.fields? realmForm.names realmForm.take {}).map RealmSlots.fill

theorem realm_decodes : Decodes realm realm? := by
  have hstep : ∀ f ∈ realmForm.slots, ∀ s, Decodes (realmField f.name s) (f.take s) := by
    simp only [realmForm, realmSlots, List.forall_mem_cons, List.not_mem_nil, false_imp_iff,
      implies_true, and_true]
    refine ⟨fun s => ?_, fun s => ?_, fun s => ?_, fun s => ?_, fun s => ?_⟩
    · exact (once_decodes s.cacheTtl unsigned_decodes).map _
    · exact (once_decodes s.cacheCapacity unsigned_decodes).map _
    · exact (once_decodes s.walkBudget optional_decodes).map _
    · exact (once_decodes s.maxWalkSteps optional_decodes).map _
    · exact (once_decodes s.idSeed string_decodes).map _
  exact (Form.fields_decodes hstep {}).map RealmSlots.fill

/-- The fields of a host's settings. -/
def hostSlots : List (Slot HostSlots) :=
  [⟨_, "runtime", realm?, (·.realm), fun s c => { s with realm := some c }⟩,
    ⟨_, "durable", Tree.durable?, (·.durable), fun s d => { s with durable := some d }⟩,
    ⟨_, "max_concurrent_walks", Tree.natural?, (·.maxConcurrentWalks),
      fun s n => { s with maxConcurrentWalks := some n }⟩,
    ⟨_, "log_filter", Tree.text?, (·.logFilter), fun s text => { s with logFilter := some text }⟩]

/-- The settings of a host as a form. -/
def hostForm : Form HostSlots where
  slots := hostSlots
  name_inj := by
    simp [hostSlots]
  get_set := by
    simp [hostSlots]
  get_set_of_ne := by
    simp [hostSlots]
  ext := by
    rintro ⟨⟩ ⟨⟩ h
    simpa [hostSlots] using h

/-- What a value says of a host's settings. -/
def host? (t : Tree) : Option HostSettings :=
  (t.fields? hostForm.names hostForm.take {}).map HostSlots.fill

theorem host_decodes : Decodes host host? := by
  have hstep : ∀ f ∈ hostForm.slots, ∀ s, Decodes (hostField f.name s) (f.take s) := by
    simp only [hostForm, hostSlots, List.forall_mem_cons, List.not_mem_nil, false_imp_iff,
      implies_true, and_true]
    refine ⟨fun s => ?_, fun s => ?_, fun s => ?_, fun s => ?_⟩
    · exact (once_decodes s.realm realm_decodes).map _
    · exact (once_decodes s.durable durable_decodes).map _
    · exact (once_decodes s.maxConcurrentWalks unsigned_decodes).map _
    · exact (once_decodes s.logFilter string_decodes).map _
  exact (Form.fields_decodes hstep {}).map HostSlots.fill

/-- A document is read as its value says, whatever blanks are around it. -/
theorem read?_writes {t : Tree} {w : Bytes} (h : Writes t w) (lead trail : Blanks) :
    HostSettings.read? (lead.bytes ++ (w ++ trail.bytes)) = host? t := by
  have hstops : Stops trail.bytes := by
    simpa using Stops.nil.blanks trail
  have hhost := host_decodes h lead hstops
  have hblanks : blanks trail.bytes = some ((), []) := by
    have hspan : span isBlank trail.bytes = some (trail.bytes, []) := by
      rw [← List.append_nil trail.bytes, span,
        List.takeWhile_append_of_pos trail.isBlank_bytes,
        List.dropWhile_append_of_pos trail.isBlank_bytes]
      simp
    exact bind_of hspan _
  unfold HostSettings.read? document whole
  cases hsettings : host? t with
  | none =>
    rw [hsettings] at hhost
    rw [bind_none hhost]
  | some settings =>
    rw [hsettings] at hhost
    rw [bind_of hhost, bind_of hblanks]
    rfl

/-! ## Overlays -/

/-- Rows tell the settings of a realm: the defaults overlaid with the fields
that are given. -/
structure RealmRows (rows : List (String × Tree)) (c : RealmConfig) : Prop where
  cacheTtl : Told (fun t n => t.natural? = some n) RealmConfig.default.cacheTtl
    (valuesOf "cache_ttl_ms" rows) c.cacheTtl
  cacheCapacity : Told (fun t n => t.natural? = some n) RealmConfig.default.cacheCapacity
    (valuesOf "cache_capacity" rows) c.cacheCapacity
  walkBudget : Told (fun t n => t.optional? = some n) RealmConfig.default.walkBudget
    (valuesOf "walk_budget_ms" rows) c.walkBudget
  maxWalkSteps : Told (fun t n => t.optional? = some n) RealmConfig.default.maxWalkSteps
    (valuesOf "max_walk_steps" rows) c.maxWalkSteps
  idSeed : Told (fun t text => t.text? = some text) RealmConfig.default.idSeed
    (valuesOf "id_seed" rows) c.idSeed

/-- A value tells the settings of a realm. -/
def RealmTold (t : Tree) (c : RealmConfig) : Prop :=
  ∃ rows, t.rows? realmNames = some rows ∧ RealmRows rows c

/-- Rows tell the settings of a host. -/
structure HostRows (rows : List (String × Tree)) (s : HostSettings) : Prop where
  realm : Told RealmTold RealmConfig.default (valuesOf "runtime" rows) s.realm
  durable : Told (fun t d => t.durable? = some d) HostSettings.default.durable
    (valuesOf "durable" rows) s.durable
  maxConcurrentWalks : Told (fun t n => t.natural? = some n)
    HostSettings.default.maxConcurrentWalks (valuesOf "max_concurrent_walks" rows)
    s.maxConcurrentWalks
  logFilter : Told (fun t text => t.text? = some text) HostSettings.default.logFilter
    (valuesOf "log_filter" rows) s.logFilter

/-- A value tells the settings of a host. -/
def HostTold (t : Tree) (s : HostSettings) : Prop :=
  ∃ rows, t.rows? hostNames = some rows ∧ HostRows rows s

theorem realmRows_iff {rows : List (String × Tree)} {c : RealmConfig} : RealmRows rows c ↔
    ∃ s : RealmSlots, (∀ f ∈ realmSlots, Fills f.meaning (f.given rows) (f.get {}) (f.get s)) ∧
      s.fill = c := by
  simp only [realmSlots, List.forall_mem_cons, List.not_mem_nil,
    false_imp_iff, implies_true, and_true]
  constructor
  · obtain ⟨cacheTtl, cacheCapacity, walkBudget, maxWalkSteps, idSeed⟩ := c
    intro h
    obtain ⟨ttl, httl, rfl⟩ := (told_iff fun _ _ => Iff.rfl).1 h.cacheTtl
    obtain ⟨capacity, hcapacity, rfl⟩ := (told_iff fun _ _ => Iff.rfl).1 h.cacheCapacity
    obtain ⟨budget, hbudget, rfl⟩ := (told_iff fun _ _ => Iff.rfl).1 h.walkBudget
    obtain ⟨steps, hsteps, rfl⟩ := (told_iff fun _ _ => Iff.rfl).1 h.maxWalkSteps
    obtain ⟨seed, hseed, rfl⟩ := (told_iff fun _ _ => Iff.rfl).1 h.idSeed
    exact ⟨⟨ttl, capacity, budget, steps, seed⟩, ⟨httl, hcapacity, hbudget, hsteps, hseed⟩, rfl⟩
  · rintro ⟨s, ⟨httl, hcapacity, hbudget, hsteps, hseed⟩, rfl⟩
    exact ⟨(told_iff fun _ _ => Iff.rfl).2 ⟨_, httl, rfl⟩,
      (told_iff fun _ _ => Iff.rfl).2 ⟨_, hcapacity, rfl⟩,
      (told_iff fun _ _ => Iff.rfl).2 ⟨_, hbudget, rfl⟩,
      (told_iff fun _ _ => Iff.rfl).2 ⟨_, hsteps, rfl⟩,
      (told_iff fun _ _ => Iff.rfl).2 ⟨_, hseed, rfl⟩⟩

theorem realm?_eq_some {t : Tree} {c : RealmConfig} : realm? t = some c ↔ RealmTold t c := by
  unfold RealmTold
  simp only [realmRows_iff]
  exact Form.map_fields?_eq_some (F := realmForm)

theorem hostRows_iff {rows : List (String × Tree)} {settings : HostSettings} :
    HostRows rows settings ↔ ∃ s : HostSlots,
      (∀ f ∈ hostSlots, Fills f.meaning (f.given rows) (f.get {}) (f.get s)) ∧
        s.fill = settings := by
  have hrealm : ∀ t c, RealmTold t c ↔ realm? t = some c := fun _ _ => realm?_eq_some.symm
  simp only [hostSlots, List.forall_mem_cons, List.not_mem_nil,
    false_imp_iff, implies_true, and_true]
  constructor
  · obtain ⟨realm, durable, maxConcurrentWalks, logFilter⟩ := settings
    intro h
    obtain ⟨config, hconfig, rfl⟩ := (told_iff hrealm).1 h.realm
    obtain ⟨tier, hdurable, rfl⟩ := (told_iff fun _ _ => Iff.rfl).1 h.durable
    obtain ⟨walks, hwalks, rfl⟩ := (told_iff fun _ _ => Iff.rfl).1 h.maxConcurrentWalks
    obtain ⟨filter, hfilter, rfl⟩ := (told_iff fun _ _ => Iff.rfl).1 h.logFilter
    exact ⟨⟨config, tier, walks, filter⟩, ⟨hconfig, hdurable, hwalks, hfilter⟩, rfl⟩
  · rintro ⟨s, ⟨hconfig, hdurable, hwalks, hfilter⟩, rfl⟩
    exact ⟨(told_iff hrealm).2 ⟨_, hconfig, rfl⟩,
      (told_iff fun _ _ => Iff.rfl).2 ⟨_, hdurable, rfl⟩,
      (told_iff fun _ _ => Iff.rfl).2 ⟨_, hwalks, rfl⟩,
      (told_iff fun _ _ => Iff.rfl).2 ⟨_, hfilter, rfl⟩⟩

theorem host?_eq_some {t : Tree} {settings : HostSettings} :
    host? t = some settings ↔ HostTold t settings := by
  unfold HostTold
  simp only [hostRows_iff]
  exact Form.map_fields?_eq_some (F := hostForm)

/-! ## What makes no difference -/

theorem realm?_shuffled {t t' : Tree} (h : Shuffled t t') : realm? t = realm? t' := by
  refine congrArg (Option.map RealmSlots.fill) (h.fields? (F := realmForm) ?_ _)
  simp only [realmForm, realmSlots, List.forall_mem_cons, List.not_mem_nil,
    false_imp_iff, implies_true, and_true]
  exact ⟨Shuffled.natural?, Shuffled.natural?, Shuffled.optional?, Shuffled.optional?,
    Shuffled.text?⟩

theorem host?_shuffled {t t' : Tree} (h : Shuffled t t') : host? t = host? t' := by
  refine congrArg (Option.map HostSlots.fill) (h.fields? (F := hostForm) ?_ _)
  simp only [hostForm, hostSlots, List.forall_mem_cons, List.not_mem_nil,
    false_imp_iff, implies_true, and_true]
  exact ⟨realm?_shuffled, Shuffled.durable?, Shuffled.natural?, Shuffled.text?⟩

/-- A value is another one with entries in another order, at any depth, and with
other entries of unknown names in the settings of the host and of its realm. The
values of these may be anything. -/
inductive Restated : Tree → Tree → Prop
  | shuffled {t t' : Tree} : Shuffled t t' → Restated t t'
  | unknown {k : Text} {name : String} (l r : List (Text × Tree)) (v : Tree) :
      k.read? = some name → name ∉ hostNames →
      Restated (.record (l ++ (k, v) :: r)) (.record (l ++ r))
  | unknownInside {runtime k : Text} {name : String} (l r l' r' : List (Text × Tree)) (v : Tree) :
      runtime.read? = some "runtime" → k.read? = some name → name ∉ realmNames →
      Restated (.record (l ++ (runtime, .record (l' ++ (k, v) :: r')) :: r))
        (.record (l ++ (runtime, .record (l' ++ r')) :: r))
  | symm {t t' : Tree} : Restated t t' → Restated t' t
  | trans {t u v : Tree} : Restated t u → Restated u v → Restated t v

theorem host?_restated {t t' : Tree} (h : Restated t t') : host? t = host? t' := by
  induction h with
  | shuffled h => exact host?_shuffled h
  | unknown l r v hk hname =>
    exact congrArg (Option.map HostSlots.fill)
      (Form.fields?_unknown (F := hostForm) hk hname v l r _)
  | @unknownInside runtime k name l r l' r' v hruntime hk hname =>
    refine congrArg (Option.map HostSlots.fill) (Form.fields?_congr (F := hostForm) ?_ l r _)
    have hrealm : realm? (.record (l' ++ (k, v) :: r')) = realm? (.record (l' ++ r')) :=
      congrArg (Option.map RealmSlots.fill)
        (Form.fields?_unknown (F := realmForm) hk hname v l' r' _)
    intro f hf hread
    have hmem : f ∈ hostSlots := hf
    rw [hruntime] at hread
    simp only [hostSlots, List.mem_cons, List.not_mem_nil, or_false] at hmem
    rcases hmem with rfl | rfl | rfl | rfl
    · exact hrealm
    all_goals exact absurd (Option.some.inj hread) (by decide)
  | symm _ ih => exact ih.symm
  | trans _ _ ih ih' => exact ih.trans ih'

/-! ## Repeated fields -/

/-- A record gives one of these names more than once. -/
def RepeatsOf (names : List String) (t : Tree) : Prop :=
  ∃ es, t = .record es ∧ ∃ name ∈ names, 1 < (es.filter fun e => e.1.read? = some name).length

/-- A record gives a field of a host's settings more than once, or a field of
the realm's settings in it. -/
def Repeats (t : Tree) : Prop :=
  RepeatsOf hostNames t ∨ ∃ es, t = .record es ∧
    ∃ e ∈ es, e.1.read? = some "runtime" ∧ RepeatsOf realmNames e.2

theorem realm?_repeats {t : Tree} (h : RepeatsOf realmNames t) : realm? t = none := by
  obtain ⟨es, rfl, name, hname, htwice⟩ := h
  obtain ⟨f, hf, rfl⟩ := List.mem_map.1 (show name ∈ realmForm.names from hname)
  exact Option.map_eq_none_iff.2 (Form.fields?_twice (F := realmForm) hf htwice _)

theorem host?_repeats {t : Tree} (h : Repeats t) : host? t = none := by
  refine Option.map_eq_none_iff.2 ?_
  rcases h with ⟨es, rfl, name, hname, htwice⟩ | ⟨es, rfl, e, he, hruntime, hrealm⟩
  · obtain ⟨f, hf, rfl⟩ := List.mem_map.1 (show name ∈ hostForm.names from hname)
    exact Form.fields?_twice (F := hostForm) hf htwice _
  · exact Form.fields?_wrong (F := hostForm) (List.mem_cons_self ..) he hruntime
      (realm?_repeats hrealm) _

/-! ## Documents in stores -/

section Loading

variable {κ : Type} [ConfigStore κ]

/-- What is loaded from a store, whatever becomes of it. -/
def answer (key : String) (store : κ) : Except ConfigError (Option HostSettings) :=
  match load HostSettings.read? key store with
  | .ok found _ => .ok found
  | .error e _ => .error e

/-- The document of a key in a store writes a value, with any blanks around
it. -/
def Holds (store : κ) (key : String) (t : Tree) : Prop :=
  ∃ (lead trail : Blanks) (w : Bytes) (after : κ), Writes t w ∧
    ConfigStore.load key store = .ok (lead.bytes ++ (w ++ trail.bytes)) after

variable {store : κ} {key : String} {t : Tree}

theorem load_of_holds (h : Holds store key t) : ∃ after, load HostSettings.read? key store =
    match host? t with
    | some settings => .ok (some settings) after
    | none => .error (.malformed key) after := by
  obtain ⟨lead, trail, w, after, hw, hload⟩ := h
  have hread := read?_writes hw lead trail
  refine ⟨after, ?_⟩
  unfold load
  rw [hload, ← hread]
  -- a value has a first byte, so that the document is not taken for a missing one
  obtain ⟨b, tail, rfl, -⟩ := hw.opens
  cases hbytes : lead.bytes ++ (b :: tail ++ trail.bytes) with
  | nil => simp at hbytes
  | cons first rest =>
    dsimp only
    cases HostSettings.read? (first :: rest) <;> rfl

theorem answer_of_holds (h : Holds store key t) : answer key store =
    match host? t with
    | some settings => .ok (some settings)
    | none => .error (.malformed key) := by
  obtain ⟨after, hload⟩ := load_of_holds h
  unfold answer
  rw [hload]
  cases host? t <;> rfl

/-- A document that gives some fields, each once and with a value that it can
have, is loaded as the defaults overlaid with them, and no other document is
loaded; with a default for missing documents it is the same. What is loaded
depends neither on the order of entries, at any depth, nor on entries of unknown
names in the settings of the host or of its realm, whatever their values. A
document that gives a field of either more than once is malformed. -/
theorem partial_documents (h : Holds store key t) :
    (∀ settings, answer key store = .ok (some settings) ↔ HostTold t settings) ∧
    (∀ settings, HostTold t settings →
      ∃ after, loadD HostSettings.read? HostSettings.default key store = .ok settings after) ∧
    (∀ (κ' : Type) [ConfigStore κ'] (store' : κ') (t' : Tree), Holds store' key t' → Restated t t' →
      answer key store' = answer key store) ∧
    (Repeats t → answer key store = .error (.malformed key)) := by
  have hanswer := answer_of_holds h
  refine ⟨fun settings => ?_, fun settings htold => ?_, fun κ' _ store' t' h' hrestated => ?_,
    fun hrepeats => ?_⟩
  · rw [hanswer, ← host?_eq_some]
    cases host? t <;> simp
  · obtain ⟨after, hload⟩ := load_of_holds h
    rw [host?_eq_some.2 htold] at hload
    refine ⟨after, ?_⟩
    change EStateM.bind _ _ store = _
    rw [EStateM.bind, hload]
    rfl
  · rw [hanswer, answer_of_holds h', host?_restated hrestated]
  · rw [hanswer, host?_repeats hrepeats]

end Loading

/-! ### A partial document -/

/-- A byte as a part of a text, if it can stand for itself. -/
def ownPiece? (b : UInt8) : Option Piece :=
  if own : b ≠ 0x22 ∧ b ≠ 0x5C ∧ 0x20 ≤ b then some (.byte b own) else none

/-- A text as written without escapes. -/
def plain (s : String) : Text := (Bytes.ofString s).filterMap ownPiece?

theorem read?_plain {s : String} (h : (Bytes.ofString s).all fun b => (ownPiece? b).isSome) :
    (plain s).read? = some s := by
  have hmeaning : ∀ bytes : Bytes, (bytes.all fun b => (ownPiece? b).isSome) →
      Text.meaning? (bytes.filterMap ownPiece?) = some bytes := by
    intro bytes h
    induction bytes with
    | nil => rfl
    | cons b bytes ih =>
      obtain ⟨hb, hbytes⟩ := Bool.and_eq_true_iff.1 h
      by_cases own : b ≠ 0x22 ∧ b ≠ 0x5C ∧ 0x20 ≤ b
      · rw [List.filterMap_cons_some (show ownPiece? b = some (.byte b own) from dif_pos own),
          Text.meaning?, ih hbytes]
        rfl
      · have hnone : ownPiece? b = none := dif_neg own
        simp [hnone] at hb
  rw [Text.read?, plain, hmeaning _ h, Option.bind_some, Bytes.toString?_ofString]

/-- A number of one digit. -/
def digit (d : Digit) : Tree := .number ⟨false, ⟨⟨d, []⟩, fun _ => rfl⟩, none, none⟩

def walksName : Text := plain "max_concurrent_walks"

def runtimeName : Text := plain "runtime"

def seedName : Text := plain "id_seed"

def noteName : Text := plain "note"

def testText : Text := plain "test"

/-- A value that gives two fields. -/
def sparse : Tree :=
  .record [(walksName, digit 3), (runtimeName, .record [(seedName, .text testText)])]

/-- The same in another order, with entries of unknown names. -/
def wordy : Tree :=
  .record [(noteName, .list [.null]),
    (runtimeName, .record [(noteName, digit 5), (seedName, .text testText)]), (walksName, digit 3)]

/-- A value that gives a field of the realm's settings more than once. -/
def doubled : Tree :=
  .record [(runtimeName, .record [(seedName, .text testText), (seedName, .text testText)])]

theorem sparse_written : Writes sparse (Bytes.ofString
    "\x7b\"max_concurrent_walks\":3,\"runtime\":\x7b\"id_seed\":\"test\"\x7d\x7d") := by
  have h : Writes sparse _ := .record (.cons [] [] (.mk walksName [] [] (.number _))
    (.cons [] [] (.mk runtimeName [] []
      (.record (.cons [] [] (.mk seedName [] [] (.text _)) .nil))) .nil))
  convert h using 1
  decide

theorem wordy_written : Writes wordy (Bytes.ofString ("\x7b\"note\" : [null], " ++
    "\"runtime\":\x7b\"note\":5,\"id_seed\":\"test\"\x7d,\"max_concurrent_walks\":3\x7d")) := by
  have h : Writes wordy _ := .record
    (.cons [] [] (.mk noteName [.space] [.space] (.list (.cons [] [] .null .nil)))
    (.cons [.space] [] (.mk runtimeName [] [] (.record
      (.cons [] [] (.mk noteName [] [] (.number _))
      (.cons [] [] (.mk seedName [] [] (.text _)) .nil))))
    (.cons [] [] (.mk walksName [] [] (.number _)) .nil)))
  convert h using 1
  decide

theorem doubled_written : Writes doubled (Bytes.ofString
    "\x7b\"runtime\":\x7b\"id_seed\":\"test\",\"id_seed\":\"test\"\x7d\x7d") := by
  have h : Writes doubled _ := .record (.cons [] [] (.mk runtimeName [] [] (.record
    (.cons [] [] (.mk seedName [] [] (.text _))
    (.cons [] [] (.mk seedName [] [] (.text _)) .nil)))) .nil)
  convert h using 1
  decide

theorem names_plain : walksName.read? = some "max_concurrent_walks" ∧
    runtimeName.read? = some "runtime" ∧ seedName.read? = some "id_seed" ∧
    noteName.read? = some "note" ∧ testText.read? = some "test" :=
  ⟨read?_plain (by decide), read?_plain (by decide), read?_plain (by decide),
    read?_plain (by decide), read?_plain (by decide)⟩

theorem sparse_told : HostTold sparse ⟨⟨30000, 10000, none, none, "test"⟩, .memory, 3, "info"⟩ := by
  refine ⟨[("max_concurrent_walks", digit 3), ("runtime", .record [(seedName, .text testText)])],
    ?_, .given ⟨[("id_seed", .text testText)], ?_, .default, .default, .default, .default,
      .given ?_⟩,
    .default, .given ?_, .default⟩
  · simp [sparse, Tree.rows?, Tree.row?, names_plain]
  · simp [Tree.rows?, Tree.row?, names_plain]
  · exact names_plain.2.2.2.2
  · rfl

theorem wordy_restates : Restated sparse wordy := by
  obtain ⟨-, hruntime, -, hnote, -⟩ := names_plain
  have hwordy : Restated wordy _ := .unknown [] _ (.list [.null]) hnote (by decide)
  have hinside := Restated.unknownInside [] [(walksName, digit 3)] [] [(seedName, .text testText)]
    (digit 5) hruntime hnote (by decide)
  exact .symm (hwordy.trans (hinside.trans (.shuffled (.record (.swap _ _ [])))))

theorem doubled_repeats : Repeats doubled := by
  obtain ⟨-, hruntime, hseed, -⟩ := names_plain
  refine .inr ⟨_, rfl, _, List.mem_singleton.2 rfl, hruntime, _, rfl, "id_seed", by decide, ?_⟩
  simp [hseed]

/-- A store in memory with a document of a host's settings. -/
def memoryWith (bytes : Bytes) : ConfigMemory := .ofBlobs (Table.empty.insert hostKey bytes)

theorem holds_memoryWith {t : Tree} {w : Bytes} (h : Writes t w) :
    Holds (memoryWith w) hostKey t := by
  refine ⟨[], [], w, { memoryWith w with loads := 1 }, h, ?_⟩
  simp [ConfigStore.load, ConfigMemory.load, memoryWith, ConfigMemory.ofBlobs, Table.get?_insert,
    Blanks.bytes]

theorem sparse_documents_loaded :
    let host (text : String) := answer hostKey (memoryWith (Bytes.ofString text))
    let settings : HostSettings := ⟨⟨30000, 10000, none, none, "test"⟩, .memory, 3, "info"⟩
    host "\x7b\"max_concurrent_walks\":3,\"runtime\":\x7b\"id_seed\":\"test\"\x7d\x7d" =
      .ok (some settings) ∧
    host ("\x7b\"note\" : [null], " ++
      "\"runtime\":\x7b\"note\":5,\"id_seed\":\"test\"\x7d,\"max_concurrent_walks\":3\x7d") =
      .ok (some settings) ∧
    host "\x7b\"runtime\":\x7b\"id_seed\":\"test\",\"id_seed\":\"test\"\x7d\x7d" =
      .error (.malformed hostKey) := by
  have hsparse := partial_documents (holds_memoryWith sparse_written)
  have hdoubled := partial_documents (holds_memoryWith doubled_written)
  have hloaded := (hsparse.1 _).2 sparse_told
  refine ⟨hloaded, ?_, hdoubled.2.2.2 doubled_repeats⟩
  exact (hsparse.2.2.1 _ _ _ (holds_memoryWith wordy_written) wordy_restates).trans hloaded

end Settings

end Wayfarer
