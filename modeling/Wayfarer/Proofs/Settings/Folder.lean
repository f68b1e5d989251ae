import Wayfarer.Proofs.Archive.Mishaps
import Wayfarer.Settings.Store

/-!
# A directory as a map from keys to documents

The document of a key is a file of its own, and while it is written there is a
second file beside it. No two keys share either of them, and none of the second
files is the document of any key. So a store in a directory answers every call
as a store in memory does (`ConfigFolder.acts_as_map`), and where a step on the
directory fails, no document has changed.

* `ConfigFolder.load_cases` and `ConfigFolder.save_outcome` say what becomes of
  a call, whatever goes wrong.
* `ConfigFolder.Mirrors` relates the documents in a directory to those in
  memory.
-/

namespace Wayfarer

/-! ## Calls -/

/-- What may be asked of a store of documents. -/
inductive ConfigCall
  | load (key : String)
  | save (key : String) (bytes : Bytes)

namespace ConfigCall

variable {σ : Type} [ConfigStore σ]

/-- The key that a call is about. -/
def key : ConfigCall → String
  | .load key => key
  | .save key _ => key

/-- A call of a store. The answer to a load is the document. -/
def run : ConfigCall → EStateM ConfigError σ (Option Bytes)
  | .load key => do pure (some (← ConfigStore.load key))
  | .save key bytes => do
    ConfigStore.save key bytes
    pure none

/-- What comes of a call, and the store after it. -/
def outcome (call : ConfigCall) (store : σ) : Except ConfigError (Option Bytes) × σ :=
  match call.run store with
  | .ok found store => (.ok found, store)
  | .error e store => (.error e, store)

/-- The answer to a call. -/
def answer (call : ConfigCall) (store : σ) : Except ConfigError (Option Bytes) :=
  (call.outcome store).1

/-- The store after a call, whether it succeeded or not. -/
def after (call : ConfigCall) (store : σ) : σ := (call.outcome store).2

/-- The store after several calls. -/
def play (store : σ) (calls : List ConfigCall) : σ := calls.foldl (fun s call => call.after s) store

theorem outcome_load (key : String) (store : σ) : (ConfigCall.load key).outcome store =
    match ConfigStore.load key store with
    | .ok bytes store => (.ok (some bytes), store)
    | .error e store => (.error e, store) := by
  simp only [outcome, run, bind, EStateM.bind]
  cases ConfigStore.load key store <;> rfl

theorem outcome_save (key : String) (bytes : Bytes) (store : σ) :
    (ConfigCall.save key bytes).outcome store =
      match ConfigStore.save key bytes store with
      | .ok _ store => (.ok none, store)
      | .error e store => (.error e, store) := by
  simp only [outcome, run, bind, EStateM.bind]
  cases ConfigStore.save key bytes store <;> rfl

end ConfigCall

namespace Disk

/-- Reading a file gives its content. It fails on a name that stands for
nothing, and otherwise only if the name is not acceptable, stands for a
directory, or the step is made to fail. -/
theorem read_cases (name : String) (d : Disk) : ∃ d', d.Becomes d.contents d' ∧
    ((∃ content, Disk.read name d = .ok content d' ∧ d.contents name = some content) ∨
      (Disk.read name d = .error .missing d' ∧ d.contents name = none) ∨
      (Disk.read name d = .error .failed d' ∧
        (accepts name = true → d.folders name = none → d.faults d.steps ≠ none))) := by
  refine ⟨{ d with steps := d.steps + 1 }, .tick d, ?_⟩
  dsimp only [Disk.read, Disk.step]
  split
  case h_3 fault _ hfault =>
    refine .inr (.inr ⟨rfl, fun _ _ => ?_⟩)
    rw [hfault]
    exact Option.some_ne_none fault
  all_goals
    split
    · rename_i hname
      refine .inr (.inr ⟨rfl, fun h => ?_⟩)
      simp [h] at hname
    · cases hget : d.entries.get? name with
      | none => exact .inr (.inl ⟨rfl, by simp [contents, hget]⟩)
      | some entry =>
        cases entry with
        | file content => exact .inl ⟨content, rfl, contents_eq_some.2 hget⟩
        | folder inside =>
          refine .inr (.inr ⟨rfl, fun _ h => ?_⟩)
          simp [folders, hget] at h

/-- A step that succeeds is on an acceptable name. -/
theorem accepts_of_step {α : Type} {name : String} {d d' : Disk} {a : α}
    {act : Listing → Except FileError (α × Listing)} (h : Disk.step name act d = .ok a d') :
    accepts name = true := by
  cases hname : accepts name with
  | true => rfl
  | false =>
    dsimp only [Disk.step] at h
    split at h
    case h_3 => cases h
    all_goals
      rw [if_pos (by simp [hname])] at h
      cases h

end Disk

namespace ConfigFolder

variable {f f' : ConfigFolder} {m : ConfigMemory} {key other : String} {bytes : Bytes}

/-- An empty directory in which steps fail as given. -/
def empty (faults : Nat → Option Fault) : ConfigFolder := ⟨{ Disk.empty with faults := faults }⟩

/-- What a key would load if no step failed. -/
def reads (f : ConfigFolder) (key : String) : Except ConfigError Bytes :=
  match load key ⟨Disk.ofListing f.disk.entries⟩ with
  | .ok bytes _ => .ok bytes
  | .error e _ => .error e

/-- The calls that did not fail on the way to the files. -/
def heeded (f : ConfigFolder) : List ConfigCall → List ConfigCall
  | [] => []
  | call :: rest =>
    match call.answer f with
    | .error .io => heeded (call.after f) rest
    | _ => call :: heeded (call.after f) rest

/-! ## Names -/

/-- The name of the file that holds the document of a key. -/
def fileName (key : String) : String := key ++ ".json"

/-- The name under which a document is written before it gets its own. -/
def draftName (key : String) : String := key ++ ".json.tmp"

/-- The key is empty, has a separator of paths in it, or starts with a dot. -/
def Pathlike (key : String) : Prop :=
  key = "" ∨ '/' ∈ key.toList ∨ '\\' ∈ key.toList ∨ key.toList.head? = some '.'

/-- The file system accepts the names that a key gives to files. -/
def Nameable (key : String) : Prop :=
  Disk.accepts (fileName key) = true ∧ Disk.accepts (draftName key) = true

theorem validKey_iff : validKey key = true ↔ ¬ Pathlike key := by
  have hempty : key = "" ↔ key.toList = [] := String.toList_eq_nil_iff.symm
  unfold validKey Pathlike
  rw [hempty]
  split
  · rename_i hcs
    simp [hcs]
  · rename_i rest hcs
    simp [hcs]
  · rename_i cs hnil hdot
    have hhead : key.toList.head? ≠ some '.' := by
      intro h
      obtain ⟨rest, hcs⟩ := List.head?_eq_some_iff.1 h
      exact hdot rest hcs
    have hall : (key.toList.all fun c => c != '/' && c != '\\') = true ↔
        '/' ∉ key.toList ∧ '\\' ∉ key.toList := by
      simp only [List.all_eq_true, Bool.and_eq_true, bne_iff_ne]
      exact ⟨fun h => ⟨fun hc => (h _ hc).1 rfl, fun hc => (h _ hc).2 rfl⟩,
        fun h c hc => ⟨fun hslash => h.1 (hslash ▸ hc), fun hslash => h.2 (hslash ▸ hc)⟩⟩
    rw [hall, not_or, not_or, not_or]
    exact ⟨fun h => ⟨hnil, h.1, h.2, hhead⟩, fun h => ⟨h.2.1, h.2.2.1⟩⟩

theorem fileName_inj {key key' : String} : fileName key = fileName key' ↔ key = key' :=
  String.append_left_inj ".json"

/-- No draft is taken for a document: the names end in different letters. -/
theorem draftName_ne_fileName (key key' : String) : draftName key ≠ fileName key' := by
  intro h
  have hlast := congrArg (fun s => s.toList.getLast?) h
  simp [draftName, fileName, String.toList_append, List.getLast?_append] at hlast

/-! ## Calls of a store in a directory -/

theorem checkKey_eq (key : String) : checkKey key =
    if validKey key then .ok () else .error (.other ("invalid config key: " ++ Text.quote key)) :=
      rfl

theorem load_of_valid (hkey : validKey key = true) (f : ConfigFolder) : load key f =
    match Disk.read (fileName key) f.disk with
    | .ok bytes d => .ok bytes ⟨d⟩
    | .error .missing d => .error .notFound ⟨d⟩
    | .error .failed d => .error .io ⟨d⟩ := by
  unfold load
  rw [checkKey_eq, if_pos hkey]
  rfl

theorem save_of_valid (hkey : validKey key = true) (bytes : Bytes) (f : ConfigFolder) :
    save key bytes f =
      match Disk.write (draftName key) bytes f.disk with
      | .error _ d => .error .io ⟨d⟩
      | .ok _ d =>
        match Disk.rename (draftName key) (fileName key) d with
        | .error _ d => .error .io ⟨d⟩
        | .ok _ d => .ok () ⟨d⟩ := by
  unfold save
  rw [checkKey_eq, if_pos hkey]
  rfl

theorem checkKey_of_pathlike (hkey : Pathlike key) :
    checkKey key = .error (.other ("invalid config key: " ++ Text.quote key)) := by
  rw [checkKey_eq, if_neg fun hvalid => validKey_iff.1 hvalid hkey]

theorem load_of_pathlike (hkey : Pathlike key) (f : ConfigFolder) :
    load key f = .error (.other ("invalid config key: " ++ Text.quote key)) f := by
  unfold load
  rw [checkKey_of_pathlike hkey]

theorem save_of_pathlike (hkey : Pathlike key) (bytes : Bytes) (f : ConfigFolder) :
    save key bytes f = .error (.other ("invalid config key: " ++ Text.quote key)) f := by
  unfold save
  rw [checkKey_of_pathlike hkey]

/-- A key that could lead elsewhere is refused before anything is done. -/
theorem run_of_pathlike {call : ConfigCall} (hkey : Pathlike call.key) (f : ConfigFolder) :
    call.run f = .error (.other ("invalid config key: " ++ Text.quote call.key)) f := by
  cases call with
  | load key =>
    show EStateM.bind (load key) _ f = _
    rw [EStateM.bind, show load key f = _ from load_of_pathlike hkey f]
  | save key bytes =>
    show EStateM.bind (save key bytes) _ f = _
    rw [EStateM.bind, show save key bytes f = _ from save_of_pathlike hkey bytes f]

theorem after_of_pathlike {call : ConfigCall} (hkey : Pathlike call.key) (f : ConfigFolder) :
    call.after f = f := by
  rw [ConfigCall.after, ConfigCall.outcome, run_of_pathlike hkey]

/-- The document of a key is the content of its file; without a file there is
none. Otherwise the step on the directory failed, for which there is a
reason. -/
theorem load_cases (hkey : validKey key = true) (f : ConfigFolder) :
    ∃ d, f.disk.Becomes f.disk.contents d ∧
      ((∃ bytes, load key f = .ok bytes ⟨d⟩ ∧ f.disk.contents (fileName key) = some bytes) ∨
        (load key f = .error .notFound ⟨d⟩ ∧ f.disk.contents (fileName key) = none) ∨
        (load key f = .error .io ⟨d⟩ ∧ (Disk.accepts (fileName key) = true →
          f.disk.folders (fileName key) = none → f.disk.faults f.disk.steps ≠ none))) := by
  obtain ⟨d, hd, hread⟩ := Disk.read_cases (fileName key) f.disk
  refine ⟨d, hd, ?_⟩
  rw [load_of_valid hkey]
  rcases hread with ⟨content, hread, hcontent⟩ | ⟨hread, hnone⟩ | ⟨hread, hwhy⟩
  · rw [hread]
    exact .inl ⟨content, rfl, hcontent⟩
  · rw [hread]
    exact .inr (.inl ⟨rfl, hnone⟩)
  · rw [hread]
    exact .inr (.inr ⟨rfl, hwhy⟩)

/-- A document that is saved takes the place of the one before. If that fails,
no file has changed but the draft. -/
theorem save_outcome (hkey : validKey key = true) (bytes : Bytes) (f : ConfigFolder) :
    Outcome (save key bytes) f
      (fun _ f' => Disk.accepts (fileName key) = true ∧ f.disk.Becomes
        (((f.disk.contents.put (draftName key) (some bytes)).put (draftName key) none).put
          (fileName key) (some bytes)) f'.disk)
      fun f' => ∃ left, f.disk.Becomes (f.disk.contents.put (draftName key) left) f'.disk := by
  have hwrite := Disk.write_outcome (draftName key) bytes f.disk
  unfold Outcome at hwrite ⊢
  rw [save_of_valid hkey]
  split at hwrite
  · rename_i d hw
    simp only [hw]
    have hsource : d.contents (draftName key) = some bytes := by
      rw [hwrite.contents, Contents.put, if_pos rfl]
    have hrename := Disk.rename_outcome (fileName key) (draftName_ne_fileName key key) hsource
    unfold Outcome at hrename
    split at hrename
    · rename_i d' hr
      simp only [hr]
      rw [hwrite.contents] at hrename
      exact ⟨Disk.accepts_of_step hr, hwrite.trans hrename⟩
    · rename_i e d' hr
      simp only [hr]
      rw [hwrite.contents] at hrename
      exact ⟨some bytes, hwrite.trans hrename⟩
  · rename_i e d hw
    simp only [hw]
    exact hwrite

/-- Where nothing goes wrong, a document can be saved. -/
theorem save_succeeds (hkey : validKey key = true) (hname : Nameable key) {g : Contents}
    (hd : f.disk.Holds g) (bytes : Bytes) : ∃ f', save key bytes f = .ok () f' := by
  obtain ⟨d, hwrite, hd⟩ := hd.write hname.2 bytes
  have hdraft : (g.put (draftName key) (some bytes)) (draftName key) = some bytes := by
    rw [Contents.put, if_pos rfl]
  obtain ⟨d', hrename, -⟩ := hd.rename hname.1 (draftName_ne_fileName key key) hdraft
  refine ⟨⟨d'⟩, ?_⟩
  rw [save_of_valid hkey, hwrite]
  simp only [hrename]

theorem save_fails_io (hkey : validKey key = true) {e : ConfigError}
    (h : save key bytes f = .error e f') : e = .io := by
  rw [save_of_valid hkey] at h
  split at h
  · cases h
    rfl
  · split at h
    · cases h
      rfl
    · cases h

/-! ## What keys load -/

theorem reads_of_pathlike (hkey : Pathlike key) (f : ConfigFolder) :
    f.reads key = .error (.other ("invalid config key: " ++ Text.quote key)) := by
  unfold reads
  rw [load_of_pathlike hkey]

/-- What a key loads is decided by what its file name stands for. -/
theorem reads_of_valid (hkey : validKey key = true) (f : ConfigFolder) : f.reads key =
    if Disk.accepts (fileName key) then
      match f.disk.entries.get? (fileName key) with
      | none => .error .notFound
      | some (.folder _) => .error .io
      | some (.file bytes) => .ok bytes
    else .error .io := by
  unfold reads
  rw [load_of_valid hkey]
  cases hname : Disk.accepts (fileName key) with
  | false => simp [Disk.read, Disk.step, Disk.ofListing, hname]
  | true =>
    cases hget : f.disk.entries.get? (fileName key) with
    | none => simp [Disk.read, Disk.step, Disk.ofListing, hname, hget]
    | some entry => cases entry <;> simp [Disk.read, Disk.step, Disk.ofListing, hname, hget]

theorem reads_of_becomes {g : Contents} (h : f.disk.Becomes g f'.disk)
    (hg : g (fileName key) = f.disk.contents (fileName key)) : f'.reads key = f.reads key := by
  have hget : f'.disk.entries.get? (fileName key) = f.disk.entries.get? (fileName key) :=
    Disk.get?_congr ((congrFun h.contents _).trans hg) (congrFun h.folders _)
  by_cases hkey : Pathlike key
  · rw [reads_of_pathlike hkey, reads_of_pathlike hkey]
  · rw [← validKey_iff] at hkey
    rw [reads_of_valid hkey, reads_of_valid hkey, hget]

/-- A save that fails leaves every document as it was; one that succeeds changes
a single document. -/
theorem save_reads (bytes : Bytes) (f : ConfigFolder) :
    Outcome (save key bytes) f
      (fun _ f' => f'.reads key = .ok bytes ∧ ∀ other, other ≠ key → f'.reads other = f.reads other)
      fun f' => ∀ other, f'.reads other = f.reads other := by
  by_cases hkey : Pathlike key
  · exact .of_error (save_of_pathlike hkey bytes f) fun _ => rfl
  · rw [← validKey_iff] at hkey
    refine (save_outcome hkey bytes f).mono ?_ ?_
    · rintro _ f' ⟨hname, hd⟩
      refine ⟨?_, fun other hother => reads_of_becomes hd ?_⟩
      · have hfile : f'.disk.contents (fileName key) = some bytes := by
          rw [hd.contents, Contents.put, if_pos rfl]
        rw [reads_of_valid hkey, if_pos hname, Disk.contents_eq_some.1 hfile]
      · have hne : fileName other ≠ fileName key := fun h => hother (fileName_inj.1 h)
        simp only [Contents.put, hne, if_false, (draftName_ne_fileName key other).symm]
    · rintro f' ⟨left, hd⟩ other
      refine reads_of_becomes hd ?_
      simp only [Contents.put, if_neg (draftName_ne_fileName key other).symm]

/-! ## Beside a store in memory -/

/-- A directory of files only, which holds the documents of a store in memory
that does not fail. -/
structure Mirrors (f : ConfigFolder) (m : ConfigMemory) : Prop where
  documents : ∀ {key}, validKey key = true → f.disk.contents (fileName key) = m.blobs.get? key
  plain : ∀ name, f.disk.folders name = none
  steady : m.fail = .never

/-- What a call comes to in a directory, beside the same call in memory: the
same, unless it is refused for its key, or fails because a step on the directory
was made to fail. -/
inductive Beside (call : ConfigCall) (f : ConfigFolder) (m : ConfigMemory) : Prop
  | refused (pathlike : Pathlike call.key) (heeded : call.answer f ≠ .error .io)
    (mirrors : (call.after f).Mirrors (call.after m))
  | hindered (failed : call.answer f = .error .io) (reason : ∃ n, f.disk.faults n ≠ none)
    (mirrors : (call.after f).Mirrors m)
  | alike (same : call.answer f = call.answer m) (heeded : call.answer f ≠ .error .io)
    (mirrors : (call.after f).Mirrors (call.after m))

namespace Mirrors

theorem start (faults : Nat → Option Fault) :
    (ConfigFolder.empty faults).Mirrors (ConfigMemory.ofBlobs Table.empty) :=
  ⟨fun _ => rfl, fun _ => rfl, rfl⟩

theorem of_becomes (h : f.Mirrors m) {m' : ConfigMemory} {g : Contents}
    (hd : f.disk.Becomes g f'.disk) (hg : ∀ key, validKey key = true →
      g (fileName key) = m'.blobs.get? key) (hm : m'.fail = m.fail) : f'.Mirrors m' :=
  ⟨fun hkey => (congrFun hd.contents _).trans (hg _ hkey),
    fun name => (congrFun hd.folders name).trans (h.plain name), hm.trans h.steady⟩

end Mirrors

end ConfigFolder

/-- A load from memory finds what was saved last, or nothing. -/
theorem ConfigMemory.outcome_load {m : ConfigMemory} (h : m.fail = .never) (key : String) :
    (ConfigCall.load key).outcome m =
      ((m.blobs.get? key).elim (.error .notFound) fun bytes => .ok (some bytes),
        { m with loads := m.loads + 1 }) := by
  rw [ConfigCall.outcome_load]
  simp only [ConfigStore.load, load, h, reduceCtorEq, if_false]
  cases m.blobs.get? key <;> rfl

theorem ConfigMemory.outcome_save {m : ConfigMemory} (h : m.fail = .never) (key : String)
    (bytes : Bytes) : (ConfigCall.save key bytes).outcome m =
      (.ok none, { m with saves := m.saves + 1, blobs := m.blobs.insert key bytes }) := by
  rw [ConfigCall.outcome_save]
  simp only [ConfigStore.save, save, h, reduceCtorEq, if_false]

namespace ConfigFolder

variable {f f' : ConfigFolder} {m : ConfigMemory} {key other : String} {bytes : Bytes}

theorem Mirrors.beside_load (h : f.Mirrors m) (hname : ¬ Pathlike key → Nameable key) :
    Beside (.load key) f m := by
  have hmemory := ConfigMemory.outcome_load h.steady key
  have hfolder : (ConfigCall.load key).outcome f = _ := ConfigCall.outcome_load key f
  -- a load changes nothing but the counts of steps and of loads
  have hsame : ∀ {d}, f.disk.Becomes f.disk.contents d →
      Mirrors ⟨d⟩ { m with loads := m.loads + 1 } ∧ Mirrors ⟨d⟩ m := fun hd =>
    ⟨h.of_becomes hd (fun _ => h.documents) rfl, h.of_becomes hd (fun _ => h.documents) rfl⟩
  by_cases hkey : Pathlike key
  · rw [show ConfigStore.load key f = _ from load_of_pathlike hkey f] at hfolder
    refine .refused hkey ?_ ?_
    · rw [ConfigCall.answer, hfolder]
      exact nofun
    · rw [ConfigCall.after, ConfigCall.after, hfolder, hmemory]
      exact (hsame (.refl f.disk)).1
  · obtain ⟨d, hd, hload⟩ := load_cases (validKey_iff.2 hkey) f
    have hdoc := h.documents (validKey_iff.2 hkey)
    rcases hload with ⟨bytes, hload, hc⟩ | ⟨hload, hc⟩ | ⟨hload, hwhy⟩
    · rw [show ConfigStore.load key f = _ from hload] at hfolder
      rw [← hdoc, hc] at hmemory
      refine .alike ?_ ?_ ?_
      · rw [ConfigCall.answer, ConfigCall.answer, hfolder, hmemory]
        rfl
      · rw [ConfigCall.answer, hfolder]
        exact nofun
      · rw [ConfigCall.after, ConfigCall.after, hfolder, hmemory]
        exact (hsame hd).1
    · rw [show ConfigStore.load key f = _ from hload] at hfolder
      rw [← hdoc, hc] at hmemory
      refine .alike ?_ ?_ ?_
      · rw [ConfigCall.answer, ConfigCall.answer, hfolder, hmemory]
        rfl
      · rw [ConfigCall.answer, hfolder]
        exact nofun
      · rw [ConfigCall.after, ConfigCall.after, hfolder, hmemory]
        exact (hsame hd).1
    · rw [show ConfigStore.load key f = _ from hload] at hfolder
      refine .hindered (congrArg Prod.fst hfolder)
        ⟨_, hwhy (hname hkey).1 (h.plain (fileName key))⟩ ?_
      rw [ConfigCall.after, hfolder]
      exact (hsame hd).2

theorem Mirrors.beside_save (h : f.Mirrors m) (hname : ¬ Pathlike key → Nameable key)
    (bytes : Bytes) :
    Beside (.save key bytes) f m := by
  have hmemory := ConfigMemory.outcome_save h.steady key bytes
  have hfolder : (ConfigCall.save key bytes).outcome f = _ := ConfigCall.outcome_save key bytes f
  by_cases hkey : Pathlike key
  · rw [show ConfigStore.save key bytes f = _ from save_of_pathlike hkey bytes f] at hfolder
    refine .refused hkey ?_ ?_
    · rw [ConfigCall.answer, hfolder]
      exact nofun
    · rw [ConfigCall.after, ConfigCall.after, hfolder, hmemory]
      refine h.of_becomes (.refl f.disk) (fun j hj => ?_) rfl
      -- the document that only memory takes has a key that no file can have
      have hne : j ≠ key := fun heq => validKey_iff.1 hj (heq ▸ hkey)
      rw [h.documents hj, Table.get?_insert, if_neg hne]
  · have hvalid := validKey_iff.2 hkey
    have hsave := save_outcome hvalid bytes f
    unfold Outcome at hsave
    cases hrun : save key bytes f with
    | ok _ f' =>
      rw [hrun] at hsave
      rw [show ConfigStore.save key bytes f = _ from hrun] at hfolder
      refine .alike ?_ ?_ ?_
      · rw [ConfigCall.answer, ConfigCall.answer, hfolder, hmemory]
      · rw [ConfigCall.answer, hfolder]
        exact nofun
      · rw [ConfigCall.after, ConfigCall.after, hfolder, hmemory]
        refine h.of_becomes hsave.2 (fun j hj => ?_) rfl
        have hdraft := (draftName_ne_fileName key j).symm
        rw [Table.get?_insert, ← h.documents hj]
        simp only [Contents.put, fileName_inj, hdraft, if_false]
    | error e f' =>
      rw [hrun] at hsave
      obtain ⟨left, hd⟩ := hsave
      rw [show ConfigStore.save key bytes f = _ from hrun] at hfolder
      refine .hindered ?_ ?_ ?_
      · rw [ConfigCall.answer, hfolder, save_fails_io hvalid hrun]
      · refine Classical.not_forall.1 fun hcalm => ?_
        obtain ⟨f'', hok⟩ := save_succeeds hvalid (hname hkey)
          (Disk.holds_iff.2 ⟨hcalm, rfl, h.plain⟩) bytes
        rw [hrun] at hok
        cases hok
      · rw [ConfigCall.after, hfolder]
        refine h.of_becomes hd (fun j hj => ?_) rfl
        rw [Contents.put, if_neg (draftName_ne_fileName key j).symm]
        exact h.documents hj

theorem Mirrors.beside (h : f.Mirrors m) (call : ConfigCall)
    (hname : ¬ Pathlike call.key → Nameable call.key) : Beside call f m := by
  cases call with
  | load key => exact h.beside_load hname
  | save key bytes => exact h.beside_save hname bytes

/-- No call changes which steps fail. -/
theorem faults_after (call : ConfigCall) (f : ConfigFolder) :
    (call.after f).disk.faults = f.disk.faults := by
  by_cases hkey : Pathlike call.key
  · exact congrArg (fun f : ConfigFolder => f.disk.faults) (after_of_pathlike hkey f)
  · cases call with
    | load key =>
      obtain ⟨d, hd, ⟨bytes, hload, -⟩ | ⟨hload, -⟩ | ⟨hload, -⟩⟩ :=
        load_cases (validKey_iff.2 hkey) f <;>
      · rw [ConfigCall.after, ConfigCall.outcome_load,
          show ConfigStore.load key f = _ from hload]
        exact hd.faults
    | save key bytes =>
      have hsave := save_outcome (validKey_iff.2 hkey) bytes f
      unfold Outcome at hsave
      rw [ConfigCall.after, ConfigCall.outcome_save]
      split at hsave
      · rename_i f' hrun
        rw [show ConfigStore.save key bytes f = _ from hrun]
        exact hsave.2.faults
      · rename_i e f' hrun
        obtain ⟨left, hd⟩ := hsave
        rw [show ConfigStore.save key bytes f = _ from hrun]
        exact hd.faults

theorem heeded_cons {call : ConfigCall} (h : call.answer f ≠ .error .io) (rest : List ConfigCall) :
    f.heeded (call :: rest) = call :: (call.after f).heeded rest := by
  rw [heeded]
  split
  · rename_i hio
    exact absurd hio h
  · rfl

theorem heeded_failed {call : ConfigCall} (h : call.answer f = .error .io)
    (rest : List ConfigCall) : f.heeded (call :: rest) = (call.after f).heeded rest := by
  rw [heeded, h]

/-- The documents in a directory are those that memory holds after the calls
that did not fail. -/
theorem Mirrors.play (h : f.Mirrors m) {calls : List ConfigCall}
    (hnames : ∀ call ∈ calls, ¬ Pathlike call.key → Nameable call.key) :
    (ConfigCall.play f calls).Mirrors (ConfigCall.play m (f.heeded calls)) ∧
      (ConfigCall.play f calls).disk.faults = f.disk.faults ∧
      ((∀ n, f.disk.faults n = none) → f.heeded calls = calls) := by
  induction calls generalizing f m with
  | nil => exact ⟨h, rfl, fun _ => rfl⟩
  | cons call rest ih =>
    obtain ⟨hname, hnames⟩ := List.forall_mem_cons.1 hnames
    have hfaults := faults_after call f
    -- a call that did not fail for want of a disk is made of the store in memory as well
    have hgoes : call.answer f ≠ .error .io → (call.after f).Mirrors (call.after m) →
        (ConfigCall.play f (call :: rest)).Mirrors
          (ConfigCall.play m (f.heeded (call :: rest))) ∧
        (ConfigCall.play f (call :: rest)).disk.faults = f.disk.faults ∧
        ((∀ n, f.disk.faults n = none) → f.heeded (call :: rest) = call :: rest) := by
      intro hheeded hmirrors
      obtain ⟨hm, hf, hall⟩ := ih hmirrors hnames
      rw [heeded_cons hheeded]
      refine ⟨hm, hf.trans hfaults, fun hcalm => ?_⟩
      rw [hall fun n => by rw [hfaults]; exact hcalm n]
    cases h.beside call hname with
    | refused hkey hheeded hmirrors => exact hgoes hheeded hmirrors
    | alike hsame hheeded hmirrors => exact hgoes hheeded hmirrors
    | hindered hfailed hreason hmirrors =>
      obtain ⟨hm, hf, -⟩ := ih hmirrors hnames
      rw [heeded_failed hfailed]
      refine ⟨hm, hf.trans hfaults, fun hcalm => ?_⟩
      obtain ⟨n, hn⟩ := hreason
      exact absurd (hcalm n) hn

/-- A store in an empty directory that nothing else uses answers as a store in
memory that is given the same calls, for all keys that can be names of files;
other keys are refused and nothing is touched. Where steps on the directory are
made to fail, some calls fail, and memory is given the others. No two keys share
a file, no draft is a document, and a save that fails, whatever the directory
and the reason, leaves what every key loads as it was. -/
theorem acts_as_map (faults : Nat → Option Fault) (calls : List ConfigCall)
    (hnames : ∀ call ∈ calls, ¬ Pathlike call.key → Nameable call.key) :
    let folder := ConfigCall.play (empty faults) calls
    let memory := ConfigCall.play (ConfigMemory.ofBlobs Table.empty) ((empty faults).heeded calls)
    ((∀ n, faults n = none) → (empty faults).heeded calls = calls) ∧
    (∀ call : ConfigCall,
      (Pathlike call.key → call.run folder =
        .error (.other ("invalid config key: " ++ Text.quote call.key)) folder) ∧
      (¬ Pathlike call.key → Nameable call.key → call.answer folder = call.answer memory ∨
        call.answer folder = .error .io ∧ ∃ n, faults n ≠ none)) ∧
    (∀ key key', (fileName key = fileName key' → key = key') ∧ draftName key ≠ fileName key') ∧
    ∀ (f f' : ConfigFolder) key bytes e, save key bytes f = .error e f' →
      ∀ other, f'.reads other = f.reads other := by
  obtain ⟨hmirrors, hfaults, hcalm⟩ := (Mirrors.start faults).play hnames
  refine ⟨hcalm, fun call => ⟨fun hkey => run_of_pathlike hkey _, fun hkey hname => ?_⟩,
    fun key key' => ⟨fileName_inj.1, draftName_ne_fileName key key'⟩, ?_⟩
  · cases hmirrors.beside call fun _ => hname with
    | refused hpath hheeded hafter => exact absurd hpath hkey
    | alike hsame hheeded hafter => exact .inl hsame
    | hindered hfailed hreason hafter =>
      rw [hfaults] at hreason
      exact .inr ⟨hfailed, hreason⟩
  · intro f f' key bytes e hrun
    exact (save_reads bytes f).error hrun

/-- Keys that look like the names of each other's files, and one that leads
elsewhere. -/
def lookalikes : List ConfigCall :=
  [.save "a" [1], .save "a.json" [2], .save "a.json.tmp" [3], .save "../a" [4], .save "a" [5],
    .load "b"]

theorem lookalike_keys_are_kept_apart :
    let folder := ConfigCall.play (empty fun _ => none) lookalikes
    let full : ConfigFolder := ⟨{ folder.disk with faults := fun _ => some .unwritable }⟩
    (∀ call ∈ lookalikes, ¬ Pathlike call.key → Nameable call.key) ∧
    ¬ Pathlike "a.json" ∧ Nameable "a.json" ∧
    (ConfigCall.load "a.json").answer folder = .ok (some [2]) ∧
    (∃ e, (ConfigCall.load "../a").run folder = .error e folder) ∧
    ∃ left, save "a" [6] full = .error .io left ∧ ∀ key, left.reads key = full.reads key := by
  intro folder full
  have hnames : ∀ call ∈ lookalikes, ¬ Pathlike call.key → Nameable call.key := by
    intro call hcall hkey
    simp only [lookalikes, List.mem_cons, List.not_mem_nil, or_false] at hcall
    rcases hcall with rfl | rfl | rfl | rfl | rfl | rfl
    · constructor <;> decide
    · constructor <;> decide
    · constructor <;> decide
    · exact absurd (.inr (.inl (by decide))) hkey
    · constructor <;> decide
    · constructor <;> decide
  have hkey : ¬ Pathlike "a.json" := validKey_iff.1 (by decide)
  have hname : Nameable "a.json" := ⟨by decide, by decide⟩
  obtain ⟨hall, hcalls, -, hsafe⟩ := acts_as_map (fun _ => none) lookalikes hnames
  rw [hall fun _ => rfl] at hcalls
  have hrun : save "a" [6] full =
      .error .io ⟨{ full.disk with steps := full.disk.steps + 1 }⟩ := by
    rw [save_of_valid (by decide)]
    rfl
  refine ⟨hnames, hkey, hname, ?_, ⟨_, (hcalls (.load "../a")).1 (.inr (.inl (by decide)))⟩,
    _, hrun, hsafe _ _ _ _ _ hrun⟩
  rcases (hcalls (.load "a.json")).2 hkey hname with hsame | ⟨-, n, hn⟩
  · exact hsame
  · exact absurd rfl hn

end ConfigFolder

end Wayfarer
