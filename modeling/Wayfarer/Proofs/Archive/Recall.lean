import Wayfarer.Proofs.Archive.Restarts
import Wayfarer.Proofs.Stock.Settling

/-!
# What commits leave in an archive

The reader of files opens a limited number of levels, and nothing that writes
knows of the limit. As long as all given values are nested in few enough levels,
every commit can be read back, and the archive can be opened again
(`Archive.commits_are_recalled`).

* `Value.Storable` is the condition on values.
* `Archive.stock` are the archives without other values, and `Archive.settles`
  says what a commit does to them.
-/

namespace Wayfarer

/-! ## What can be stored -/

/-- A value whose maps are in order and which is nested in so few levels that it
can be read back with those of the anchor around it. -/
structure Value.Storable (v : Value) : Prop where
  ordered : v.Ordered
  levels : v.levels + 5 ≤ AnchorFile.maxLevels

theorem deepest_le_iff {γ : Type} {levels : γ → Nat} {l : List γ} {n : Nat} :
    deepest levels l ≤ n ↔ ∀ x ∈ l, levels x ≤ n := by
  induction l with
  | nil => simp [deepest]
  | cons x rest ih => rw [deepest, Nat.max_le, ih, List.forall_mem_cons]

namespace Anchor

variable {a : Anchor}

theorem levels_access_le (a : Access) : a.levels ≤ 3 := by
  have hroots : deepest (fun _ => 1) a.roots.toList ≤ 1 := deepest_le_iff.2 fun _ _ => Nat.le_refl 1
  unfold Access.levels
  simp only [List.foldr]
  split <;> omega

theorem levels_edges_le (edges : List EdgeId) : EdgeId.levels edges ≤ 2 := by
  have hedges : deepest (fun _ => 1) edges ≤ 1 := deepest_le_iff.2 fun _ _ => Nat.le_refl 1
  unfold EdgeId.levels
  omega

/-- The fields of an anchor are inside of five levels. -/
theorem levels_le_iff {n : Nat} (hn : 5 ≤ n) :
    a.levels ≤ n ↔ ∀ e ∈ a.fields.entries, e.2.levels + 5 ≤ n := by
  have haccess := levels_access_le a.access
  have hfields : a.fields.levels + 3 ≤ n ↔ ∀ e ∈ a.fields.entries, e.2.levels + 5 ≤ n := by
    have hdeep : deepest (fun e : String × Value => e.2.levels + 1) a.fields.entries ≤ n - 4 ↔ _ :=
      deepest_le_iff
    have hshift : ∀ e : String × Value, e.2.levels + 1 ≤ n - 4 ↔ e.2.levels + 5 ≤ n := by
      intro e
      omega
    simp only [hshift] at hdeep
    rw [← hdeep, Fields.levels]
    omega
  rw [← hfields]
  obtain ⟨id, owner, access, version, body, dirty⟩ := a
  cases body with
  | node r =>
    have hout := levels_edges_le r.outgoing
    have hin := levels_edges_le r.incoming
    simp only [Anchor.levels, Body.levels, NodeRecord.levels, List.foldr, Anchor.fields]
      at haccess ⊢
    omega
  | edge r =>
    simp only [Anchor.levels, Body.levels, EdgeRecord.levels, List.foldr, Anchor.fields]
      at haccess ⊢
    split <;> omega

/-- A file can be read if all values in it are storable, and only then. -/
theorem legible_iff (hsize : (AnchorFile.encode a).length < Bytes.limit 8) :
    a.Legible ↔ a.fields.All Value.Storable := by
  have hlevels := levels_le_iff (a := a) (n := AnchorFile.maxLevels) (by decide)
  constructor
  · intro h e he
    exact ⟨h.ordered e he, hlevels.1 h.levels e he⟩
  · intro h
    exact ⟨fun e he => (h e he).ordered, hlevels.2 fun e he => (h e he).levels, hsize⟩

end Anchor

/-! ## Drafts and batches -/

namespace Draft.Keyed

variable {d : Draft}

/-- A draft sends every object once. -/
theorem namesOnce (h : d.Keyed) : d.batch.NamesOnce := by
  have hwrites : d.writes.map (·.id) = (d.volatile.toList.filter (·.2.dirty)).map (·.1) := by
    rw [Draft.writes, Table.values, List.filter_map, List.map_map, List.map_map]
    refine List.map_congr_left fun e he => ?_
    have hown : e.2.id = e.1 := h.own (Table.mem_toList.1 (List.mem_filter.1 he).1)
    exact hown
  have hnodup : (d.writes.map (·.id)).Nodup := by
    rw [hwrites]
    exact d.volatile.nodup_keys.sublist (List.filter_sublist.map _)
  refine List.nodup_append.2 ⟨hnodup, d.tombstones.nodup_keys, ?_⟩
  rintro id hwritten _ hdeleted rfl
  obtain ⟨w, hw, rfl⟩ := List.mem_map.1 hwritten
  obtain ⟨⟨id, v⟩, hv, hid⟩ := List.mem_map.1 hdeleted
  obtain ⟨j, a, ha, _, rfl⟩ := Draft.mem_writes.1 hw
  have hnone : d.copy? id = none := h.apart (Draft.mem_deletes.1 hv)
  rw [show id = j from hid.trans (h.own_committed ha), ha] at hnone
  cases hnone

end Draft.Keyed

/-! ## Commits -/

namespace Archive

/-- Eight bytes suffice for the length of every file. -/
def Sized (d : Disk) : Prop :=
  ∀ {name content}, d.entries.get? name = some (.file content) → content.length < Bytes.limit 8

/-- Everything that a commit wrote is fetched from the archive as it was
written, and also from the archive opened again, which knows and keeps all there
is. -/
structure Recalls (ready : Desk Archive) (receipt : Receipt) (after : Desk Archive) : Prop where
  written : receipt.written = ready.draft.writes.map (·.id)
  fetched : ∀ w ∈ ready.draft.writes, ∃ a, fetch w.id after.shared.durable = .ok (some w) a
  opened : ∃ a, opened after.shared.durable.disk = .ok a a.disk ∧ (∃ v, a.Mirrors v) ∧
    ∀ w ∈ ready.draft.writes, ∃ a', fetch w.id a = .ok (some w) a'

theorem Mirrors.default : (default : Archive).Mirrors Vault.empty := by
  refine ⟨⟨fun _ => none, ⟨fun _ => rfl, fun _ => rfl⟩, ⟨fun _ => rfl, .inr ⟨rfl, rfl⟩, ?_⟩⟩,
    rfl, rfl, fun ha => by cases ha⟩
  exact fun _ hname => absurd rfl hname

/-- A realm can always start over an archive that is in order. -/
theorem realm_starts {a : Archive} {v : Vault} (h : a.Mirrors v) (rulebook : Rulebook)
    (config : RealmConfig) : ∃ realm a', Realm.start rulebook config a = .ok realm a' := by
  have hagree := h.nextEpoch
  unfold Realm.start
  rw [show Durable.nextEpoch a = nextEpoch a from rfl]
  generalize nextEpoch a = outcome at hagree
  rw [Vault.nextEpoch] at hagree
  cases hagree with
  | ok _ h' => exact ⟨_, _, rfl⟩

/-- Archives in which every value is storable. -/
def stock : Stock Archive where
  value := Value.Storable
  holds a := ∃ v, a.Mirrors v
  fetched := by
    rintro a a' id b ⟨v, h⟩ hfetch
    obtain ⟨a'', hfound, _⟩ := h.fetch_ok id
    have hget : v.anchors.get? id = some b := by
      have hsame := hfound.symm.trans hfetch
      injection hsame
    obtain ⟨hid, _, hlegible⟩ := h.sound hget
    exact ⟨hid, (Anchor.legible_iff hlegible.size).1 hlegible⟩
  kept := by
    rintro a id ⟨v, h⟩
    obtain ⟨a', hfound, h'⟩ := h.fetch_ok id
    have hend : endOf (Durable.fetch id) a = a' := by
      unfold endOf
      rw [show Durable.fetch id a = .ok (v.anchors.get? id) a' from hfound]
    exact ⟨v, hend ▸ h'⟩
  begun := by
    rintro a a' epoch ⟨v, h⟩ hepoch
    have hagree := h.nextEpoch
    rw [show nextEpoch a = .ok epoch a' from hepoch] at hagree
    cases hagree with
    | ok _ h' => exact ⟨_, h'⟩

/-- What the vault beside an archive holds is fetched from the archive, closed
or not. -/
theorem Mirrors.recalls {ready after : Desk Archive} {receipt : Receipt} {v : Vault}
    (h : after.shared.durable.Mirrors v)
    (hwritten : receipt.written = ready.draft.writes.map (·.id))
    (hheld : ∀ w ∈ ready.draft.writes, v.anchors.get? w.id = some w) :
    Recalls ready receipt after := by
  obtain ⟨a, hopen, ha⟩ := h.opened
  refine ⟨hwritten, fun w hw => ?_, a, hopen, ⟨v, ha⟩, fun w hw => ?_⟩
  · obtain ⟨a', hfetch, _⟩ := h.fetch_ok w.id
    exact ⟨a', hheld w hw ▸ hfetch⟩
  · obtain ⟨a', hfetch, _⟩ := ha.fetch_ok w.id
    exact ⟨a', hheld w hw ▸ hfetch⟩

/-- A batch of storable values that leaves files of acceptable size can be read
back. -/
theorem Mirrors.applied {a a' : Archive} {v : Vault} (h : a.Mirrors v) {batch : Batch} {u : Unit}
    (honce : batch.NamesOnce) (hvalues : ∀ w ∈ batch.writes, w.fields.All Value.Storable)
    (happly : Archive.apply batch a = .ok u a') (hsized : Sized a'.disk) :
    a'.Mirrors { v with anchors := Vault.overlay v.anchors batch } := by
  rcases h.apply_cases honce with ⟨e, hrefused, _⟩ | ⟨disk, f, hdone, hvault, hdisk, hf⟩
  · rw [hrefused] at happly
    cases happly
  have hsame := hdone.symm.trans happly
  injection hsame with _ hafter
  have hlegible : ∀ w ∈ batch.writes, w.Legible := by
    intro w hw
    have hfile : disk.entries.get? (fileName w.id "cbor") = some (.file (AnchorFile.encode w)) := by
      rw [hdisk.files, hf.files, honce.get?_written hw]
      rfl
    rw [← hafter] at hsized
    exact (Anchor.legible_iff (@hsized (fileName w.id "cbor") _ hfile)).2 (hvalues w hw)
  have hagree := h.apply honce hlegible
  rw [happly, hvault] at hagree
  cases hagree with
  | ok _ h' => exact h'

/-- A commit of storable values that ends with files of acceptable size can be
recalled. -/
theorem settles : stock.Settles (fun d => Sized d.shared.durable.disk) Recalls := by
  intro d h
  obtain ⟨v, hmirrors⟩ := h.tiers.durable
  have honce := h.draft.keyed.namesOnce
  refine Desk.commit_cases (fun hempty _ => ⟨h, hmirrors.recalls ?_ ?_⟩)
    (fun a' happly hsized => ?_)
    fun e a' happly => ?_
  · rw [Draft.writes_eq_nil hempty]
    rfl
  · rw [Draft.writes_eq_nil hempty]
    exact fun _ hw => absurd hw List.not_mem_nil
  · have hheld : ∀ w ∈ d.draft.writes,
        (Vault.overlay v.anchors d.draft.batch).get? w.id = some w := by
      intro w hw
      obtain ⟨id, a, ha, hdirty, rfl⟩ := Draft.mem_writes.1 hw
      exact h.draft.keyed.own_committed ha ▸ h.draft.keyed.overlay_of_dirty ha hdirty
    simp only [Shared.settle_durable] at hsized
    have hvalues : ∀ w ∈ d.draft.batch.writes, w.fields.All Value.Storable := fun w hw =>
      (h.draft.writes w hw).2
    have hafter := hmirrors.applied honce hvalues happly hsized
    refine ⟨⟨h.draft.settle, .settle ⟨⟨_, hafter⟩, h.tiers.cached⟩ h.draft.writes⟩, ?_⟩
    refine Mirrors.recalls (v := { v with anchors := _ }) ?_ rfl hheld
    rw [Shared.settle_durable]
    exact hafter
  · rcases hmirrors.apply_cases honce with ⟨e', hrefused, _⟩ | ⟨disk, f, hdone, -⟩
    · have hsame := hrefused.symm.trans happly
      injection hsame with _ hkept
      exact hkept ▸ h
    · have hsame := hdone.symm.trans happly
      cases hsame

/-- As long as every default and every value given to an operation is storable
and the files are of acceptable size, every commit of any sessions, walks and
requests for roots, in any order, can be recalled from the archive that a realm
was started over. -/
theorem commits_are_recalled {rulebook : Rulebook} {config : RealmConfig}
    {archive archive' : Archive} {realm : Realm Archive} (harchive : ∃ v, archive.Mirrors v)
    (hstart : Realm.start rulebook config archive = .ok realm archive')
    (hrules : rulebook.All Value.Storable) (moves : List Move)
    (hops : ∀ {d op}, .performs d op ∈ (Assembly.begin realm).journal moves →
      op.Gives Value.Storable)
    (hsize : ∀ {before after}, .commits before after ∈ (Assembly.begin realm).journal moves →
      Sized after.shared.durable.disk)
    {before after : Desk Archive}
    (hcommit : .commits before after ∈ (Assembly.begin realm).journal moves) :
    (∃ ready receipt, before.Commits ready receipt after) ∧
      ∀ {ready receipt}, before.Commits ready receipt after → Recalls ready receipt after := by
  have hbegin : stock.Assemblies (Assembly.begin realm) := .begin harchive hrules hstart
  have hallows : ∀ x ∈ (Assembly.begin realm).journal moves,
      stock.Allows (fun d => Sized d.shared.durable.disk) x := by
    intro x hx
    cases x with
    | performs d op => exact hops hx
    | commits before after => exact hsize hx
  exact (settles.journal hbegin moves hallows).2 _ hcommit

end Archive

/-! ## What is nested too deep -/

namespace Archive

variable {d : Disk} {f : Contents} {name : String}

/-- Reading keeps the files, whether it succeeds or not. -/
theorem indexFile_holds (h : d.Holds f) (index : Table ObjectId IndexEntry) (name : String) :
    (∃ e d', indexFile index name d = .error e d') ∨
      ∃ index' d', indexFile index name d = .ok index' d' ∧ d'.Holds f := by
  unfold indexFile
  split
  · cases hread : readAnchor name d with
    | error e d' => exact .inl ⟨e, d', by simp only [bind, EStateM.bind, hread]⟩
    | ok found d' =>
      rw [bind_of_ok hread]
      cases found with
      | none => exact .inl ⟨.io, d', rfl⟩
      | some a =>
        refine .inr ⟨_, d', rfl, ?_⟩
        cases hfile : Disk.read name d with
        | error e d' => cases e <;> simp [readAnchor, hfile] at hread
        | ok content d'' =>
          have hdisk : d'' = d' := by
            simp only [readAnchor, hfile] at hread
            split at hread
            · injection hread
            · cases hread
          exact hdisk ▸ h.of_read hfile
  · exact .inr ⟨index, d, rfl, h⟩

/-- One file that cannot be read is enough. -/
theorem foldlM_indexFile_error (h : d.Holds f) {names : List String} (hname : name ∈ names)
    (hbad : ∀ {d} index, d.Holds f → ∃ e d', indexFile index name d = .error e d')
    (index : Table ObjectId IndexEntry) :
    ∃ e d', (names.foldlM indexFile index : EStateM Error Disk _) d = .error e d' := by
  induction names generalizing d index with
  | nil => cases hname
  | cons first rest ih =>
    rw [List.foldlM_cons]
    rcases indexFile_holds h index first with ⟨e, d', herror⟩ | ⟨index', d', hok, hd⟩
    · exact ⟨e, d', by simp only [bind, EStateM.bind, herror]⟩
    · rw [bind_of_ok hok]
      rcases List.mem_cons.1 hname with rfl | hrest
      · obtain ⟨e, d'', herror⟩ := hbad index h
        rw [hok] at herror
        cases herror
      · exact ih hd hrest index'

theorem readAnchor_deep (h : d.Holds f) (hname : Disk.accepts name = true) {a : Anchor}
    (hordered : a.Ordered) (hsize : (AnchorFile.encode a).length < Bytes.limit 8)
    (hdeep : AnchorFile.maxLevels < a.levels) (hf : f name = some (AnchorFile.encode a)) :
    ∃ d', readAnchor name d = .error .malformed d' := by
  obtain ⟨d', hread, _⟩ := h.read hname hf
  have hdecode : AnchorFile.decode (AnchorFile.encode a) = none := by
    have hwithin := AnchorFile.decode_encode hordered hsize []
    rwa [List.append_nil, within, if_neg (Nat.not_le.2 hdeep)] at hwithin
  exact ⟨d', by simp only [readAnchor, hread, hdecode]⟩

/-- The condition on levels is exact. An archive writes an anchor that is nested
deeper without complaint, then does not find it, and cannot be opened again. -/
theorem deep_is_lost {a : Archive} {v : Vault} (h : a.Mirrors v) {batch : Batch}
    (honce : batch.NamesOnce) (hcheck : Batch.check batch v.version? = .ok ()) {w : Anchor}
    (hw : w ∈ batch.writes) (hordered : w.Ordered)
    (hsize : (AnchorFile.encode w).length < Bytes.limit 8)
    (hdeep : AnchorFile.maxLevels < w.levels) :
    ∃ a', apply batch a = .ok () a' ∧ (∃ a'', fetch w.id a' = .error .malformed a'') ∧
      ∃ e d, opened a'.disk = .error e d := by
  rcases h.apply_cases honce with ⟨e, _, hrefused⟩ | ⟨d, f, happly, _, hd, hf⟩
  · simp [Vault.apply, hcheck] at hrefused
  · have hfile : f (fileName w.id "cbor") = some (AnchorFile.encode w) := by
      rw [hf.files, honce.get?_written hw]
      rfl
    have hname := accepts_fileName w.id "cbor" (by decide)
    have hread : ∀ {d : Disk}, d.Holds f → ∃ d', readAnchor (fileName w.id "cbor") d =
        .error .malformed d' :=
      fun hd => readAnchor_deep hd hname hordered hsize hdeep hfile
    refine ⟨_, happly, ?_, ?_⟩
    · obtain ⟨d', hread⟩ := hread hd
      exact ⟨{ disk := d', index := overlay a.index batch, epoch := a.epoch }, by
        simp only [fetch, hread]⟩
    · have hmem : fileName w.id "cbor" ∈ d.names :=
        hd.mem_names.2 (by rw [hfile]; exact Option.some_ne_none _)
      obtain ⟨e, d', herror⟩ := foldlM_indexFile_error hd hmem (fun {d} index hd => by
        obtain ⟨d', hread⟩ := hread hd
        refine ⟨.malformed, d', ?_⟩
        rw [indexFile, if_pos (extension?_fileName w.id (by decide))]
        simp only [bind, EStateM.bind, hread]) Table.empty
      exact ⟨e, d', by simp only [opened, recover_ok hd hf, herror]⟩

/-- A number in so many lists, one in the other. -/
def boxed : Nat → Value
  | 0 => .int 7
  | n + 1 => .list [boxed n]

theorem ordered_boxed (n : Nat) : (boxed n).Ordered := by
  induction n with
  | zero => exact .int 7
  | succ n ih => exact .list fun v hv => List.mem_singleton.1 hv ▸ ih

/-- A new node whose only field is one list too deep. -/
def deeplyNested : Anchor :=
  { Anchor.ofNode ⟨⟨1⟩⟩ ⟨⟨⟨2⟩⟩⟩ (.isolated ⟨⟨3⟩⟩ ⟨[("content", boxed 126)]⟩) with version := 1 }

theorem deeplyNested_is_lost : ∃ a', apply ⟨[deeplyNested], []⟩ default = .ok () a' ∧
    (∃ a'', fetch deeplyNested.id a' = .error .malformed a'') ∧
    ∃ e d, opened a'.disk = .error e d := by
  have honce : Batch.NamesOnce ⟨[deeplyNested], []⟩ := List.nodup_singleton _
  have hordered : deeplyNested.Ordered := by
    intro e he
    rw [List.mem_singleton.1 he]
    exact ordered_boxed 126
  exact deep_is_lost Mirrors.default honce rfl (List.mem_singleton_self _) hordered
    (by decide +kernel) (by decide +kernel)

end Archive

/-! ## A place on file -/

theorem Value.storable_str (text : String) : (Value.str text).Storable := by
  refine ⟨.str text, ?_⟩
  have hlevels : (Value.str text).levels ≤ 2 := by simp [Value.levels]
  exact Nat.le_trans (Nat.add_le_add_right hlevels 5) (by decide)

/-- A record of texts. -/
def Fields.textual (f : Fields) : Bool := f.entries.all fun e => e.2.str?.isSome

theorem Fields.storable_of_textual {f : Fields} (h : f.textual = true) : f.All Value.Storable := by
  intro e he
  have hstr := List.all_eq_true.1 h e he
  cases hv : e.2 with
  | str text => exact Value.storable_str text
  | _ => simp [hv, Value.str?] at hstr

namespace Travel

/-- A schema of places with names. -/
def gazetteer : Rulebook :=
  (Rulebook.build
    (Schema.base.extend [⟨"place", .node, none, ⟨[("name", .str "")]⟩⟩] [])).toOption.getD default

theorem gazetteer_storable : gazetteer.All Value.Storable := by
  intro type fields hfields
  have hall : gazetteer.types.merged.values.all Fields.textual = true := by decide +kernel
  exact Fields.storable_of_textual (List.all_eq_true.1 hall _ (Table.mem_values.2 ⟨type, hfields⟩))

/-- The realm of places that starts over the archive of an empty directory. -/
def filed : Realm Archive :=
  match Realm.start gazetteer .default (default : Archive) with
  | .ok realm _ => realm
  | .error _ archive =>
    ⟨gazetteer, .default, ⟨archive, Cache.new 0 0, ⟨⟨0⟩, 0⟩, 0, Table.empty, Table.empty⟩⟩

theorem filed_starts : ∃ archive,
    Realm.start gazetteer .default (default : Archive) = .ok filed archive := by
  obtain ⟨realm, archive, hstart⟩ := Archive.realm_starts Archive.Mirrors.default gazetteer .default
  exact ⟨archive, by rw [filed, hstart]⟩

/-- A tenant gets a root, links a place to it and commits. -/
def visits : List Move :=
  let root := RootId.ofTenant "acme"
  let hall : Fields := ⟨[("name", .str "hall")]⟩
  [.ask root (.createRoot "acme"), .enter "day" root,
    .attend "day" (.perform (.createLinked root.node "place" hall plainEdgeName)),
    .attend "day" .commit]

/-- Whether what is noted is about texts only and leaves files of acceptable
size. -/
def modest : Incident Archive → Bool
  | .performs _ (.createLinked _ _ fields _) => fields.textual
  | .performs _ _ => false
  | .commits _ after => after.shared.durable.disk.entries.values.all fun
    | .file content => content.length < Bytes.limit 8
    | .folder _ => true

/-- Whether a commit noted leaves so many files. -/
def leaves (size : Nat) : Incident Archive → Bool
  | .performs _ _ => false
  | .commits _ after => after.shared.durable.disk.entries.size = size

theorem visits_modest : ((Assembly.begin filed).journal visits).all modest = true ∧
    ((Assembly.begin filed).journal visits).any (leaves 4) = true := by
  decide +kernel

end Travel

/-- The root, the place, the road to it and the epoch are on file, and all of it
can be recalled. -/
theorem Archive.committed_place_is_recalled : ∃ before after,
    .commits before after ∈ (Assembly.begin Travel.filed).journal Travel.visits ∧
      after.shared.durable.disk.entries.size = 4 ∧
      ∃ ready receipt, before.Commits ready receipt after ∧ Recalls ready receipt after := by
  obtain ⟨archive, hstart⟩ := Travel.filed_starts
  obtain ⟨hmodest, hleaves⟩ := Travel.visits_modest
  obtain ⟨x, hx, hsize⟩ := List.any_eq_true.1 hleaves
  cases x with
  | performs => cases hsize
  | commits before after =>
    have hgives : ∀ {d op}, .performs d op ∈ (Assembly.begin Travel.filed).journal Travel.visits →
        op.Gives Value.Storable := by
      intro d op hop
      have hgiven := List.all_eq_true.1 hmodest _ hop
      cases op with
      | createLinked source type fields edgeType => exact Fields.storable_of_textual hgiven
      | _ => cases hgiven
    have hsized : ∀ {before after},
        .commits before after ∈ (Assembly.begin Travel.filed).journal Travel.visits →
        Sized after.shared.durable.disk := by
      intro before after hafter name content hfile
      have hall := List.all_eq_true.1 hmodest _ hafter
      exact of_decide_eq_true (List.all_eq_true.1 hall _ (Table.mem_values.2 ⟨name, hfile⟩))
    obtain ⟨⟨ready, receipt, hcommits⟩, hrecalls⟩ := commits_are_recalled ⟨_, Mirrors.default⟩
      hstart Travel.gazetteer_storable Travel.visits hgives hsized hx
    exact ⟨before, after, hx, of_decide_eq_true hsize, ready, receipt, hcommits, hrecalls hcommits⟩

end Wayfarer
