import Mathlib.Algebra.GroupWithZero.Nat
import Mathlib.Data.List.Nodup
import Wayfarer.Proofs.Archive.Epochs
import Wayfarer.Realm
import Wayfarer.Vault

/-!
# Identities never repeat

A `Ledger` is kept over the whole history of one durable tier: of every realm
that was started on it and of every identity that a mint of theirs named,
through restarts and whatever goes wrong with the directory of an archive.

* Byte strings that are hashed can be taken apart again: `Mint.imprint_inj` and
  `Mint.script_inj`.
* `Ledger.Sound` is the invariant: realms start in one epoch after another, and
  every identity is on record with its realm and its count. `Ledger.Sound.step`
  and `Ledger.Sound.play` keep it.
-/

namespace Wayfarer

/-! ## What is hashed -/

namespace Bytes

theorem littleEndian_inj {n m : UInt64} (h : littleEndian 8 n.toNat = littleEndian 8 m.toNat) :
    n = m := by
  have hback := congrArg ofLittleEndian h
  rw [ofLittleEndian_littleEndian n.toNat_lt, ofLittleEndian_littleEndian m.toNat_lt] at hback
  exact UInt64.toNat_inj.1 hback

end Bytes

namespace Mint

/-- What the stamp of a mint is the digest of. -/
def imprint (seed : String) (epoch : UInt64) : Bytes :=
  Bytes.ofString "mint:" ++ Bytes.ofString seed ++ Bytes.littleEndian 8 epoch.toNat

/-- What an identity of a mint is the digest of. -/
def script (domain : String) (stamp : Digest) (count : UInt64) : Bytes :=
  Bytes.ofString domain ++ stamp.bytes ++ Bytes.littleEndian 8 count.toNat

theorem stamp_new (seed : String) (epoch : UInt64) :
    (new seed epoch).stamp = Digest.hash (imprint seed epoch) := rfl

theorem digest_nextNode (m : Mint) :
    (ObjectId.node m.nextNode).digest = Digest.hash (script "node:" m.stamp m.count) := rfl

theorem digest_nextEdge (m : Mint) :
    (ObjectId.edge m.nextEdge).digest = Digest.hash (script "edge:" m.stamp m.count) := rfl

/-- The domains under which mints name objects. -/
def domains : List String := ["node:", "edge:"]

/-- No frame is needed around the seed, as the epoch takes up a fixed number of
bytes. -/
theorem imprint_inj {seed seed' : String} {epoch epoch' : UInt64}
    (h : imprint seed epoch = imprint seed' epoch') :
    epoch = epoch' := by
  have hlength : (Bytes.littleEndian 8 epoch.toNat).length =
      (Bytes.littleEndian 8 epoch'.toNat).length := by
    rw [Bytes.length_littleEndian, Bytes.length_littleEndian]
  exact Bytes.littleEndian_inj (List.append_inj' h hlength).2

theorem script_inj {domain domain' : String} {stamp stamp' : Digest} {count count' : UInt64}
    (h : script domain stamp count = script domain' stamp' count') :
    stamp = stamp' ∧ count = count' := by
  have hcount : (Bytes.littleEndian 8 count.toNat).length =
      (Bytes.littleEndian 8 count'.toNat).length := by
    rw [Bytes.length_littleEndian, Bytes.length_littleEndian]
  have hstamp : stamp.bytes.length = stamp'.bytes.length := by
    rw [Digest.length_bytes, Digest.length_bytes]
  obtain ⟨hfront, hback⟩ := List.append_inj' h hcount
  have hbytes := congrArg Digest.ofBytes (List.append_inj' hfront hstamp).2
  rw [Digest.ofBytes_bytes, Digest.ofBytes_bytes] at hbytes
  exact ⟨hbytes, Bytes.littleEndian_inj hback⟩

/-- What mints name is never hashed as the root of a tenant is. -/
theorem script_ne_root {domain : String} (hdomain : domain ∈ domains) (stamp : Digest)
    (count : UInt64) (tenant : String) :
    script domain stamp count ≠ Bytes.ofString "root:" ++ Bytes.ofString tenant := by
  have hall : ∀ domain ∈ domains, (Bytes.ofString domain).length = (Bytes.ofString "root:").length ∧
      Bytes.ofString domain ≠ Bytes.ofString "root:" := by decide
  intro h
  rw [script, List.append_assoc] at h
  exact (hall domain hdomain).2 (List.append_inj h (hall domain hdomain).1).1

end Mint

namespace Ledger

/-! ## Histories -/

/-- A durable tier: a vault, an archive, or a directory in which no archive is
open. -/
inductive Tier
  | vault (v : Vault)
  | archive (a : Archive)
  | closed (d : Disk)

/-- What happens to a durable tier and to the mints of the realms on it: a realm
is started, a mint names a node or an edge, the root of a tenant is named, an
anchor is read, a batch is applied, and a directory is opened again. -/
inductive Event
  | start (rulebook : Rulebook) (config : RealmConfig)
  | node (run : Nat)
  | edge (run : Nat)
  | root (tenant : String)
  | fetch (id : ObjectId)
  | apply (batch : Batch)
  | reopen

/-- A realm that was started: its seed, its mint, and how many identities the
mint has named. -/
structure Run where
  seed : String
  mint : Mint
  named : Nat

/-- An identity, with the realm whose mint named it and how many it had named
before. -/
structure Entry where
  run : Nat
  count : Nat
  id : ObjectId

end Ledger

/-- The history of a durable tier: all realms and identities, all roots asked
for, and all that was hashed. -/
structure Ledger where
  tier : Ledger.Tier
  runs : List Ledger.Run
  entries : List Ledger.Entry
  roots : List RootId
  hashed : List Bytes

namespace Ledger

namespace Tier

/-- Work on a tier that is open. -/
def work {α : Type} (onVault : EStateM Error Vault α) (onArchive : EStateM Error Archive α) :
    EStateM Error Tier α
  | .vault v =>
    match onVault v with
    | .ok x v => .ok x (.vault v)
    | .error e v => .error e (.vault v)
  | .archive a =>
    match onArchive a with
    | .ok x a => .ok x (.archive a)
    | .error e a => .error e (.archive a)
  | .closed d => .error .io (.closed d)

/-- A realm that is started, and the mint that it gets. -/
def opening {σ : Type} [Durable σ] (rulebook : Rulebook) (config : RealmConfig) :
    EStateM Error σ Mint := fun s =>
  match Realm.start rulebook config s with
  | .ok r s => .ok r.shared.mint s
  | .error e s => .error e s

def start (rulebook : Rulebook) (config : RealmConfig) : EStateM Error Tier Mint :=
  work (opening rulebook config) (opening rulebook config)

def fetch (id : ObjectId) : EStateM Error Tier (Option Anchor) :=
  work (Durable.fetch id) (Durable.fetch id)

def apply (batch : Batch) : EStateM Error Tier Unit :=
  work (Durable.apply batch) (Durable.apply batch)

/-- The tier after work on it, whether that succeeded or not. -/
def after {α : Type} (w : EStateM Error Tier α) (t : Tier) : Tier :=
  match w t with
  | .ok _ t => t
  | .error _ t => t

/-- The tier after a directory was opened. -/
def ofDisk (d : Disk) : Tier :=
  match Archive.opened d with
  | .ok a _ => .archive a
  | .error _ d => .closed d

/-- A tier that is opened again. What a vault holds is not kept anywhere
else. -/
def reopened : Tier → Tier
  | .vault v => .vault v
  | .archive a => ofDisk a.disk
  | .closed d => ofDisk d

/-- The epoch of a tier that is open. -/
def epoch : Tier → UInt64
  | .vault v => v.epoch
  | .archive a => a.epoch
  | .closed _ => 0

end Tier

/-- The ledger of a tier on which no realm was started yet. -/
def blank (t : Tier) : Ledger := ⟨t, [], [], [], []⟩

/-- The ledger after the mint of a realm has named something. -/
def enter (l : Ledger) (run : Nat) (domain : String) (object : Mint → ObjectId) : Ledger :=
  match l.runs[run]? with
  | none => l
  | some x => { l with
      runs := l.runs.set run ⟨x.seed, x.mint.advance, x.named + 1⟩,
      entries := ⟨run, x.named, object x.mint⟩ :: l.entries,
      hashed := Mint.script domain x.mint.stamp x.mint.count :: l.hashed }

/-- The ledger after one more event. -/
def step (l : Ledger) : Event → Ledger
  | .start rulebook config =>
    match Tier.start rulebook config l.tier with
    | .error _ t => { l with tier := t }
    | .ok mint t => { l with
        tier := t,
        runs := l.runs ++ [⟨config.idSeed, mint, 0⟩],
        hashed := Mint.imprint config.idSeed t.epoch :: l.hashed }
  | .node run => l.enter run "node:" fun mint => .node mint.nextNode
  | .edge run => l.enter run "edge:" fun mint => .edge mint.nextEdge
  | .root tenant => { l with
      roots := RootId.ofTenant tenant :: l.roots,
      hashed := (Bytes.ofString "root:" ++ Bytes.ofString tenant) :: l.hashed }
  | .fetch id => { l with tier := Tier.after (Tier.fetch id) l.tier }
  | .apply batch => { l with tier := Tier.after (Tier.apply batch) l.tier }
  | .reopen => { l with tier := l.tier.reopened }

/-- The ledger after all that happened. -/
def play (l : Ledger) (events : List Event) : Ledger := events.foldl step l

/-! ## Epochs follow one another -/

namespace Tier

variable {t : Tier} {e : UInt64}

/-- A tier in an epoch. On a directory the epoch is on record. -/
def Abides (e : UInt64) : Tier → Prop
  | .vault v => v.epoch = e
  | .archive a => a.Abides e
  | .closed d => d.Records e

theorem work_outcome {α : Type} {onVault : EStateM Error Vault α}
    {onArchive : EStateM Error Archive α} {Q : α → Tier → Prop} {E : Tier → Prop}
    (hvault : ∀ v, t = .vault v → Outcome onVault v (fun x v' => Q x (.vault v'))
      fun v' => E (.vault v'))
    (harchive : ∀ a, t = .archive a →
      Outcome onArchive a (fun x a' => Q x (.archive a')) fun a' => E (.archive a'))
    (hclosed : ∀ d, t = .closed d → E (.closed d)) : Outcome (work onVault onArchive) t Q E := by
  cases t with
  | vault v =>
    have hv := hvault v rfl
    unfold Outcome work
    dsimp only
    cases hrun : onVault v with
    | ok x v' => exact hv.ok hrun
    | error err v' => exact hv.error hrun
  | archive a =>
    have ha := harchive a rfl
    unfold Outcome work
    dsimp only
    cases hrun : onArchive a with
    | ok x a' => exact ha.ok hrun
    | error err a' => exact ha.error hrun
  | closed d => exact .of_error rfl (hclosed d rfl)

/-- A realm that is started has the mint of the epoch that it was handed. -/
theorem opening_outcome {σ : Type} [Durable σ] {rulebook : Rulebook} {config : RealmConfig} {s : σ}
    {Q : Mint → σ → Prop} {E : σ → Prop}
    (h : Outcome Durable.nextEpoch s (fun e s' => Q (Mint.new config.idSeed e) s') E) :
    Outcome (opening rulebook config) s Q E := by
  unfold Outcome opening Realm.start
  cases hrun : (Durable.nextEpoch : EStateM Error σ UInt64) s with
  | ok epoch s' => exact h.ok hrun
  | error err s' => exact h.error hrun

theorem start_outcome (rulebook : Rulebook) (config : RealmConfig) (t : Tier) :
    Outcome (start rulebook config) t
      (fun mint t' => mint = Mint.new config.idSeed t'.epoch ∧ t'.Abides t'.epoch ∧
        ∀ e, t.Abides e → t'.epoch = e + 1)
      fun t' => ∀ e, t.Abides e → t'.Abides e := by
  refine work_outcome ?_ ?_ ?_
  · rintro v rfl
    exact opening_outcome (.of_ok rfl ⟨rfl, rfl, fun e h => congrArg (· + 1) h⟩)
  · rintro a rfl
    refine opening_outcome ((Archive.nextEpoch_outcome a).mono ?_ fun _ h => h)
    rintro n a' ⟨rfl, h⟩
    have hepoch : (Tier.archive a').epoch = a.epoch + 1 := h.epoch
    rw [hepoch]
    exact ⟨rfl, h, fun e he => congrArg (· + 1) (Archive.Abides.epoch he)⟩
  · rintro d rfl
    exact fun e h => h

theorem fetch_maintains (id : ObjectId) : Maintains (Abides e) (fetch id) := by
  intro t h
  refine work_outcome ?_ ?_ ?_
  · rintro v rfl
    exact .of_ok rfl h
  · rintro a rfl
    exact Archive.fetch_maintains id a h
  · rintro d rfl
    exact h

theorem apply_maintains (batch : Batch) : Maintains (Abides e) (apply batch) := by
  intro t h
  refine work_outcome ?_ ?_ ?_
  · rintro v rfl
    show Outcome (Vault.apply batch) v _ _
    unfold Outcome Vault.apply
    cases batch.check v.version? <;> exact h
  · rintro a rfl
    exact Archive.apply_maintains batch a h
  · rintro d rfl
    exact h

theorem Abides.after {α : Type} {w : EStateM Error Tier α} (h : t.Abides e)
    (hw : Maintains (Abides e) w) : (Tier.after w t).Abides e := by
  have ht := hw t h
  unfold Tier.after
  split
  · rename_i hrun
    exact ht.ok hrun
  · rename_i hrun
    exact ht.error hrun

theorem Abides.ofDisk {d : Disk} (h : d.Records e) : (Tier.ofDisk d).Abides e := by
  have hopened := Archive.opened_outcome h
  unfold Tier.ofDisk
  split
  · rename_i hrun
    exact hopened.ok hrun
  · rename_i hrun
    exact hopened.error hrun

theorem Abides.reopened (h : t.Abides e) : t.reopened.Abides e := by
  cases t with
  | vault v => exact h
  | archive a => exact .ofDisk h.record
  | closed d => exact .ofDisk h

end Tier

/-! ## The invariant -/

/-- A realm that was started in an epoch. -/
structure Run.Began (epoch : UInt64) (hashed : List Bytes) (x : Run) : Prop where
  stamp : x.mint.stamp = Digest.hash (Mint.imprint x.seed epoch)
  sealed : Mint.imprint x.seed epoch ∈ hashed
  count : x.mint.count = UInt64.ofNat x.named

/-- An identity that the mint of a realm named. -/
structure Entry.Named (l : Ledger) (x : Run) (entry : Entry) : Prop where
  run : l.runs[entry.run]? = some x
  count : entry.count < x.named
  script : ∃ domain ∈ Mint.domains,
    entry.id.digest = Digest.hash (Mint.script domain x.mint.stamp (UInt64.ofNat entry.count)) ∧
      Mint.script domain x.mint.stamp (UInt64.ofNat entry.count) ∈ l.hashed

/-- A ledger of realms that were started in one epoch after another, each of
them naming one identity after another. -/
structure Sound (before : UInt64) (l : Ledger) : Prop where
  tier : l.runs ≠ [] → l.tier.Abides (before + UInt64.ofNat l.runs.length)
  runs : ∀ {i} {x : Run}, l.runs[i]? = some x → x.Began (before + UInt64.ofNat (i + 1)) l.hashed
  entries : ∀ entry ∈ l.entries, ∃ x, entry.Named l x
  once : (l.entries.map fun entry => (entry.run, entry.count)).Nodup
  roots : ∀ root ∈ l.roots, ∃ tenant, root = RootId.ofTenant tenant ∧
    Bytes.ofString "root:" ++ Bytes.ofString tenant ∈ l.hashed

variable {l : Ledger} {before : UInt64}

theorem sound_blank (t : Tier) : (blank t).Sound before :=
  ⟨fun h => absurd rfl h, fun hx => (by cases hx), fun _ h => absurd h List.not_mem_nil,
    List.nodup_nil,
    fun _ h => absurd h List.not_mem_nil⟩

theorem Run.Began.more {epoch : UInt64} {hashed : List Bytes} {x : Run} (h : x.Began epoch hashed)
    (b : Bytes) : x.Began epoch (b :: hashed) :=
  ⟨h.stamp, List.mem_cons_of_mem b h.sealed, h.count⟩

theorem Entry.Named.mono {l' : Ledger} {entry : Entry} {x x' : Run} (h : entry.Named l x)
    (hrun : l'.runs[entry.run]? = some x') (hstamp : x'.mint.stamp = x.mint.stamp)
    (hnamed : x.named ≤ x'.named) (hhashed : ∀ b ∈ l.hashed, b ∈ l'.hashed) :
    entry.Named l' x' := by
  obtain ⟨domain, hdomain, hid, hmem⟩ := h.script
  rw [← hstamp] at hid hmem
  exact ⟨hrun, Nat.lt_of_lt_of_le h.count hnamed, domain, hdomain, hid, hhashed _ hmem⟩

/-- Another state of the tier. -/
theorem Sound.withTier (h : l.Sound before) {t : Tier} (ht : ∀ e, l.tier.Abides e → t.Abides e) :
    { l with tier := t }.Sound before :=
  ⟨fun hne => ht _ (h.tier hne), h.runs, fun entry he =>
    (h.entries entry he).imp fun _ hx => ⟨hx.run, hx.count, hx.script⟩, h.once, h.roots⟩

theorem Sound.start (h : l.Sound before) {seed : String} {mint : Mint} {t : Tier}
    (hstamp : mint.stamp = Digest.hash (Mint.imprint seed t.epoch)) (hcount : mint.count = 0)
    (ht : t.Abides t.epoch ∧ ∀ e, l.tier.Abides e → t.epoch = e + 1) :
    ∃ before', Ledger.Sound before' { l with
      tier := t,
      runs := l.runs ++ [⟨seed, mint, 0⟩],
      hashed := Mint.imprint seed t.epoch :: l.hashed } := by
  -- before the first run any epoch may be stored, later ones follow the last
  obtain ⟨before', hnext, hold⟩ : ∃ before', before' + UInt64.ofNat (l.runs.length + 1) = t.epoch ∧
      ∀ {i} {x : Run}, l.runs[i]? = some x → x.Began (before' + UInt64.ofNat (i + 1)) l.hashed := by
    by_cases hne : l.runs = []
    · refine ⟨t.epoch - 1, ?_, fun hx => by simp [hne] at hx⟩
      rw [hne]
      exact UInt64.sub_add_cancel ..
    · refine ⟨before, ?_, h.runs⟩
      rw [ht.2 _ (h.tier hne), UInt64.ofNat_add, UInt64.add_assoc]
      rfl
  refine ⟨before', ?_, ?_, ?_, h.once, ?_⟩
  · intro _
    rw [List.length_append, List.length_singleton, hnext]
    exact ht.1
  · intro i x hx
    rw [List.getElem?_append] at hx
    split at hx
    · exact (hold hx).more _
    · rename_i hi
      rw [List.getElem?_singleton] at hx
      split at hx
      · have hlast : i + 1 = l.runs.length + 1 := by omega
        cases hx
        rw [hlast, hnext]
        exact ⟨hstamp, List.mem_cons_self, hcount⟩
      · cases hx
  · intro entry he
    obtain ⟨x, hx⟩ := h.entries entry he
    have hrun : ∀ more, (l.runs ++ more)[entry.run]? = some x := fun more =>
      (List.getElem?_append_left (List.getElem?_eq_some_iff.1 hx.run).1).trans hx.run
    exact ⟨x, hx.mono (hrun _) rfl (Nat.le_refl _) fun _ => List.mem_cons_of_mem _⟩
  · intro root hroot
    exact (h.roots root hroot).imp fun _ ht => ⟨ht.1, List.mem_cons_of_mem _ ht.2⟩

theorem Sound.enter (h : l.Sound before) {run : Nat} {domain : String} {object : Mint → ObjectId}
    (hdomain : domain ∈ Mint.domains)
    (hobject : ∀ m, (object m).digest = Digest.hash (Mint.script domain m.stamp m.count)) :
    (l.enter run domain object).Sound before := by
  unfold Ledger.enter
  split
  · exact h
  · rename_i x hx
    have hlen : run < l.runs.length := (List.getElem?_eq_some_iff.1 hx).1
    have hbegan := h.runs hx
    refine ⟨?_, ?_, ?_, ?_, ?_⟩
    · intro hne
      rw [List.length_set]
      exact h.tier fun hnil => hne (by rw [hnil]; rfl)
    · intro i y hy
      rw [List.getElem?_set] at hy
      split at hy
      · rename_i hi
        subst hi
        cases hy
        refine ⟨hbegan.stamp, List.mem_cons_of_mem _ hbegan.sealed, ?_⟩
        rw [UInt64.ofNat_add, ← hbegan.count]
        rfl
      · exact (h.runs hy).more _
    · intro entry he
      rcases List.mem_cons.1 he with rfl | he
      · refine ⟨_, List.getElem?_set_self hlen, Nat.lt_succ_self _, domain, hdomain, ?_⟩
        dsimp only
        rw [← hbegan.count]
        exact ⟨hobject x.mint, List.mem_cons_self⟩
      · obtain ⟨y, hy⟩ := h.entries entry he
        by_cases hrun : entry.run = run
        · have hxy : y = x := Option.some.inj (hy.run.symm.trans (hrun ▸ hx))
          subst hxy
          subst hrun
          exact ⟨_, hy.mono (List.getElem?_set_self hlen) rfl (Nat.le_succ y.named)
            fun _ => List.mem_cons_of_mem _⟩
        · exact ⟨y, hy.mono ((List.getElem?_set_ne (Ne.symm hrun)).trans hy.run) rfl
            (Nat.le_refl _) fun _ => List.mem_cons_of_mem _⟩
    · refine List.nodup_cons.2 ⟨fun hmem => ?_, h.once⟩
      -- The counts of the entries before are all below the present one.
      obtain ⟨entry, he, hsame⟩ := List.mem_map.1 hmem
      obtain ⟨y, hy⟩ := h.entries entry he
      obtain ⟨hrun, hcount⟩ := Prod.mk.inj hsame
      have hxy : y = x := Option.some.inj (hy.run.symm.trans (hrun ▸ hx))
      subst hxy
      exact Nat.lt_irrefl _ (hcount ▸ hy.count)
    · intro root hroot
      exact (h.roots root hroot).imp fun _ ht => ⟨ht.1, List.mem_cons_of_mem _ ht.2⟩

theorem Sound.root (h : l.Sound before) {tenant : String} {root : RootId}
    (hroot : root = RootId.ofTenant tenant) :
    Ledger.Sound before { l with
      roots := root :: l.roots,
      hashed := (Bytes.ofString "root:" ++ Bytes.ofString tenant) :: l.hashed } := by
  refine ⟨h.tier, fun hx => (h.runs hx).more _, fun entry he => ?_, h.once, fun asked hasked => ?_⟩
  · exact (h.entries entry he).imp fun _ hx => hx.mono hx.run rfl (Nat.le_refl _) fun _ =>
      List.mem_cons_of_mem _
  · rcases List.mem_cons.1 hasked with rfl | hasked
    · exact ⟨tenant, hroot, List.mem_cons_self⟩
    · exact (h.roots asked hasked).imp fun _ ht => ⟨ht.1, List.mem_cons_of_mem _ ht.2⟩

/-- Whatever happens next is put down. -/
theorem Sound.step (h : l.Sound before) (event : Event) :
    ∃ before', (l.step event).Sound before' := by
  cases event with
  | start rulebook config =>
    have hstart := Tier.start_outcome rulebook config l.tier
    unfold Ledger.step
    dsimp only
    cases hrun : Tier.start rulebook config l.tier with
    | error e t => exact ⟨before, h.withTier (hstart.error hrun)⟩
    | ok mint t =>
      have hopened := hstart.ok hrun
      have hstamp : mint.stamp = Digest.hash (Mint.imprint config.idSeed t.epoch) := by
        rw [hopened.1, Mint.stamp_new]
      have hcount : mint.count = 0 := congrArg Mint.count hopened.1
      exact h.start hstamp hcount hopened.2
  | node run => exact ⟨before, h.enter (by decide) Mint.digest_nextNode⟩
  | edge run => exact ⟨before, h.enter (by decide) Mint.digest_nextEdge⟩
  | root tenant => exact ⟨before, h.root rfl⟩
  | fetch id => exact ⟨before, h.withTier fun _ ht => ht.after (Tier.fetch_maintains id)⟩
  | apply batch => exact ⟨before, h.withTier fun _ ht => ht.after (Tier.apply_maintains batch)⟩
  | reopen => exact ⟨before, h.withTier fun _ ht => ht.reopened⟩

theorem Sound.play (h : l.Sound before) (events : List Event) :
    ∃ before', (l.play events).Sound before' := by
  induction events generalizing l before with
  | nil => exact ⟨before, h⟩
  | cons event rest ih =>
    obtain ⟨before', h'⟩ := h.step event
    exact ih h'

/-! ## No identity twice -/

/-- No two byte strings that were hashed have the same digest. -/
def CollisionFree (l : Ledger) : Prop :=
  ∀ b ∈ l.hashed, ∀ b' ∈ l.hashed, Digest.hash b = Digest.hash b' → b = b'

theorem ofNat_inj {n m : Nat} (hn : n < 2 ^ 64) (hm : m < 2 ^ 64)
    (h : UInt64.ofNat n = UInt64.ofNat m) : n = m := by
  have hmod := congrArg UInt64.toNat h
  rwa [UInt64.toNat_ofNat_of_lt' hn, UInt64.toNat_ofNat_of_lt' hm] at hmod

namespace Sound

/-- Realms have different stamps. -/
theorem run_eq (h : l.Sound before) (hfree : l.CollisionFree) (hruns : l.runs.length < 2 ^ 64)
    {i j : Nat} {x y : Run} (hx : l.runs[i]? = some x) (hy : l.runs[j]? = some y)
    (hstamp : x.mint.stamp = y.mint.stamp) : i = j := by
  have hi := (List.getElem?_eq_some_iff.1 hx).1
  have hj := (List.getElem?_eq_some_iff.1 hy).1
  have himprint := hfree _ (h.runs hx).sealed _ (h.runs hy).sealed
    ((h.runs hx).stamp.symm.trans (hstamp.trans (h.runs hy).stamp))
  have hepoch := (UInt64.add_right_inj _).1 (Mint.imprint_inj himprint)
  have hnext := ofNat_inj (Nat.lt_of_le_of_lt hi hruns) (Nat.lt_of_le_of_lt hj hruns) hepoch
  exact Nat.succ.inj hnext

/-- Identities with the same digest are by the same realm at the same count. -/
theorem entry_eq (h : l.Sound before) (hfree : l.CollisionFree) (hruns : l.runs.length < 2 ^ 64)
    (hnamed : ∀ run ∈ l.runs, run.named < 2 ^ 64) {entry entry' : Entry} (he : entry ∈ l.entries)
    (he' : entry' ∈ l.entries) (hid : entry.id.digest = entry'.id.digest) :
    (entry.run, entry.count) = (entry'.run, entry'.count) := by
  obtain ⟨x, hx⟩ := h.entries entry he
  obtain ⟨y, hy⟩ := h.entries entry' he'
  obtain ⟨domain, -, hdigest, hmem⟩ := hx.script
  obtain ⟨domain', -, hdigest', hmem'⟩ := hy.script
  have hscript := hfree _ hmem _ hmem' (hdigest.symm.trans (hid.trans hdigest'))
  obtain ⟨hstamp, hcount⟩ := Mint.script_inj hscript
  have hbelow : ∀ {entry : Entry} {x : Run}, entry.Named l x → entry.count < 2 ^ 64 := fun h =>
    Nat.lt_trans h.count (hnamed _ (List.mem_of_getElem? h.run))
  exact Prod.ext (h.run_eq hfree hruns hx.run hy.run hstamp)
    (ofNat_inj (hbelow hx) (hbelow hy) hcount)

end Sound

/-- No digest is handed out twice in the history of a tier, be it for a node or
for an edge and however often realms are started, and none is that of a tenant's
root: provided that nothing that was hashed collides, and that there are fewer
than 2^64 realms with fewer than 2^64 identities each. -/
theorem ids_never_repeat (t : Tier) (events : List Event)
    (hfree : ((blank t).play events).CollisionFree)
    (hruns : ((blank t).play events).runs.length < 2 ^ 64)
    (hnamed : ∀ run ∈ ((blank t).play events).runs, run.named < 2 ^ 64) :
    (((blank t).play events).entries.map fun entry => entry.id.digest).Nodup ∧
      ∀ entry ∈ ((blank t).play events).entries, ∀ root ∈ ((blank t).play events).roots,
        entry.id.digest ≠ root.node.digest := by
  have hblank : (blank t).Sound 0 := sound_blank t
  obtain ⟨before, h⟩ := hblank.play events
  refine ⟨?_, ?_⟩
  · refine h.once.of_map.map_on fun entry he entry' he' hid => ?_
    exact List.inj_on_of_nodup_map h.once he he' (h.entry_eq hfree hruns hnamed he he' hid)
  · intro entry he root hroot hsame
    obtain ⟨x, hx⟩ := h.entries entry he
    obtain ⟨domain, hdomain, hdigest, hmem⟩ := hx.script
    obtain ⟨tenant, hname, hasked⟩ := h.roots root hroot
    have hrootDigest : root.node.digest =
        Digest.hash (Bytes.ofString "root:" ++ Bytes.ofString tenant) := by rw [hname]; rfl
    exact Mint.script_ne_root hdomain _ _ tenant
      (hfree _ hmem _ hasked (hdigest.symm.trans (hsame.trans hrootDigest)))

/-- A realm names an edge; the archive is opened again, and a realm with the
same seed names a node. -/
def restart : List Event :=
  [.reopen, .start default .default, .edge 0, .root "acme", .reopen, .start default .default,
    .node 1]

theorem restart_plain :
    (((blank (.closed Disk.empty)).play restart).hashed.map Digest.hash).Nodup ∧
      ((blank (.closed Disk.empty)).play restart).runs.map (·.named) = [1, 1] := by
  decide +kernel

theorem restart_repeats_nothing :
    (((blank (.closed Disk.empty)).play restart).entries.map fun entry => entry.id.digest).Nodup ∧
      ∀ entry ∈ ((blank (.closed Disk.empty)).play restart).entries,
        ∀ root ∈ ((blank (.closed Disk.empty)).play restart).roots,
          entry.id.digest ≠ root.node.digest := by
  obtain ⟨hhashed, hnamed⟩ := restart_plain
  have hlength := congrArg List.length hnamed
  rw [List.length_map] at hlength
  refine ids_never_repeat (.closed Disk.empty) restart ?_ ?_ ?_
  · exact fun b hb b' hb' => List.inj_on_of_nodup_map hhashed hb hb'
  · rw [hlength]
    decide
  · intro run hrun
    have hone : run.named ∈ [1, 1] := hnamed ▸ List.mem_map_of_mem hrun
    simp only [List.mem_cons, List.not_mem_nil, or_false, or_self] at hone
    rw [hone]
    decide

end Ledger

end Wayfarer
