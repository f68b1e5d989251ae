import Wayfarer.Proofs.Json.Texts

/-!
# Records of JSON

A printed record stands over several lines, an entry on each. A reader of values
(`Json.Reads`) and a step that takes in one entry (`Json.Takes`) make a reader
of records: `Json.entries_record`.
-/

namespace Wayfarer.Json

open Reader

variable {α σ : Type} {lead rest mid : Bytes} {s t u : σ}

/-- Wherever a document is printed and whatever ends it, the reader takes the
whole of it and comes to a known value. -/
def Reads (r : Reader α) (d : Doc) (a : α) : Prop :=
  ∀ level lead rest, (∀ b ∈ lead, isBlank b = true) → Ends rest →
    r (lead ++ Bytes.ofString (d.printAt level) ++ rest) = some (a, rest)

theorem string_reads (s : String) : Reads string (.text s) s := fun _ _ rest hlead _ =>
  string_quote hlead s rest

/-! ## Entries -/

/-- The bytes of an entry. -/
def entryBytes (level : Nat) (e : String × Doc) : Bytes :=
  Bytes.ofString (quote e.1) ++ 0x3A :: 0x20 :: Bytes.ofString (e.2.printAt level)

/-- The bytes of an entry on a line of its own. -/
def lineBytes (level : Nat) (e : String × Doc) : Bytes :=
  List.replicate (2 * level) 0x20 ++ entryBytes level e

theorem bytes_indent (level : Nat) :
    Bytes.ofString (indent level) = List.replicate (2 * level) 0x20 := by
  have hblank : String.utf8EncodeChar ' ' = [0x20] := by decide
  rw [indent, Bytes.ofString_ofList, List.flatMap_replicate, hblank,
    List.flatten_replicate_singleton]

theorem bytes_entries (level : Nat) (e : String × Doc) (es : List (String × Doc)) :
    Bytes.ofString (Doc.printEntries level (e :: es)) =
      lineBytes level e ++ es.flatMap fun e => 0x2C :: 0x0A :: lineBytes level e := by
  have hcolon : Bytes.ofString ": " = [0x3A, 0x20] := by decide
  have hcomma : Bytes.ofString ",\n" = [0x2C, 0x0A] := by decide
  induction es generalizing e with
  | nil =>
    simp only [Doc.printEntries, Bytes.ofString_append, bytes_indent, hcolon, lineBytes, entryBytes]
    simp
  | cons e' es ih =>
    simp only [Doc.printEntries, Bytes.ofString_append, bytes_indent, hcolon, hcomma, ih]
    simp [lineBytes, entryBytes]

theorem bytes_record (level : Nat) (e : String × Doc) (es : List (String × Doc)) (rest : Bytes) :
    Bytes.ofString (Doc.printAt level (.record (e :: es))) ++ rest =
      0x7B :: 0x0A :: (Bytes.ofString (Doc.printEntries (level + 1) (e :: es)) ++
        0x0A :: (List.replicate (2 * level) 0x20 ++ 0x7D :: rest)) := by
  have hopen : Bytes.ofString "\x7b\n" = [0x7B, 0x0A] := by decide
  have hline : Bytes.ofString "\n" = [0x0A] := by decide
  have hclose : Bytes.ofString "\x7d" = [0x7D] := by decide
  simp only [Doc.printAt, Bytes.ofString_append, bytes_indent, hopen, hline, hclose]
  simp

/-- One round of the loop that reads a record. -/
def entryRound (step : σ → Reader σ) : Bool × σ → Reader ((Bool × σ) × Bool) := fun (first, s) => do
  match ← token? with
  | some 0x7D => do
    let _ ← byte
    pure ((false, s), false)
  | some 0x2C =>
    if first then failure
    else do
      let _ ← byte
      match ← token? with
      | some 0x7D => failure
      | _ => do
        let s ← step s
        pure ((false, s), true)
  | _ =>
    if first then do
      let s ← step s
      pure ((false, s), true)
    else failure

theorem entries_eq (s : σ) (step : σ → Reader σ) :
    entries s step = (loop (true, s) (entryRound step) >>= fun p => pure p.2) := rfl

variable {step : σ → Reader σ}

theorem entryRound_first (hlead : ∀ b ∈ lead, isBlank b = true)
    (h : step s (0x22 :: mid) = some (t, rest)) :
    entryRound step (true, s) (lead ++ 0x22 :: mid) = some (((false, t), true), rest) := by
  unfold entryRound
  refine (bind_of (token_of hlead (by decide)) _).trans ?_
  exact bind_of h _

theorem entryRound_next (hlead : ∀ b ∈ lead, isBlank b = true)
    (h : step s (0x22 :: mid) = some (t, rest)) :
    entryRound step (false, s) (0x2C :: (lead ++ 0x22 :: mid)) =
      some (((false, t), true), rest) := by
  unfold entryRound
  refine (bind_of (token_cons (by decide)) _).trans ?_
  refine (bind_of (byte_cons 0x2C _) _).trans ?_
  refine (bind_of (token_of hlead (by decide)) _).trans ?_
  exact bind_of h _

theorem entryRound_last (hlead : ∀ b ∈ lead, isBlank b = true) (first : Bool) (rest : Bytes) :
    entryRound step (first, s) (lead ++ 0x7D :: rest) = some (((false, s), false), rest) := by
  unfold entryRound
  exact bind_of (token_of hlead (by decide)) _

/-- A step takes in an entry, wherever it is printed and whatever ends it. -/
def TakesEntry (step : σ → Reader σ) (e : String × Doc) (s t : σ) : Prop :=
  ∀ level rest, Ends rest → step s (entryBytes level e ++ rest) = some (t, rest)

/-- A step takes in entries, one after another. -/
inductive TakesEntries (step : σ → Reader σ) : σ → List (String × Doc) → σ → Prop
  | nil (s : σ) : TakesEntries step s [] s
  | cons {e : String × Doc} {es : List (String × Doc)} {s t u : σ} :
      TakesEntry step e s t → TakesEntries step t es u → TakesEntries step s (e :: es) u

/-- The end of a line and the indentation of the next one are blanks. -/
theorem isBlank_indent (level : Nat) :
    ∀ b ∈ 0x0A :: List.replicate (2 * level) (0x20 : UInt8), isBlank b = true := by
  refine List.forall_mem_cons.mpr ⟨rfl, fun b hb => ?_⟩
  rw [List.eq_of_mem_replicate hb]
  rfl

/-- An entry begins with a quote. -/
theorem entryBytes_eq (level : Nat) (e : String × Doc) :
    ∃ bytes, entryBytes level e = 0x22 :: bytes :=
  ⟨_, by rw [entryBytes, bytes_quote, List.cons_append]⟩

/-- What comes after an entry is a comma, or what comes after the last one. -/
theorem ends_entries (level : Nat) (es : List (String × Doc)) (hrest : Ends rest) :
    Ends (es.flatMap (fun e => 0x2C :: 0x0A :: lineBytes level e) ++ rest) := by
  cases es with
  | nil => exact hrest
  | cons => exact .comma _

/-- The entries after the first one. -/
theorem runs_entries {es : List (String × Doc)} (h : TakesEntries step s es t) (level : Nat)
    (hrest : Ends rest) :
    Runs (entryRound step) (false, s)
      (es.flatMap (fun e => 0x2C :: 0x0A :: lineBytes level e) ++ rest) (false, t) rest := by
  induction h with
  | nil s => exact .refl ..
  | @cons e es s t u hfirst _ ih =>
    have hstep := hfirst level _ (ends_entries level es hrest)
    obtain ⟨bytes, hbytes⟩ := entryBytes_eq level e
    rw [hbytes, List.cons_append] at hstep
    have hround := entryRound_next (isBlank_indent level) hstep
    refine .trans (.round (by simpa [lineBytes, hbytes] using hround) ?_) ih
    simp only [List.flatMap_cons, List.cons_append, List.append_assoc, List.length_cons,
      List.length_append]
    omega

/-- The first entry. -/
theorem runs_entry {e : String × Doc} (h : TakesEntry step e s t) (level : Nat)
    (hrest : Ends rest) :
    Runs (entryRound step) (true, s) (0x0A :: (lineBytes level e ++ rest)) (false, t) rest := by
  have hstep := h level rest hrest
  obtain ⟨bytes, hbytes⟩ := entryBytes_eq level e
  rw [hbytes, List.cons_append] at hstep
  have hround := entryRound_first (isBlank_indent level) hstep
  refine .round ?_ (by simp only [List.length_cons, List.length_append]; omega)
  simpa [lineBytes, hbytes] using hround

/-- A record that is not empty is read entry by entry. -/
theorem entries_record {e : String × Doc} {es : List (String × Doc)}
    (h : TakesEntries step s (e :: es) u) (level : Nat) (rest : Bytes) :
    entries s step (0x0A :: (Bytes.ofString (Doc.printEntries (level + 1) (e :: es)) ++
      0x0A :: (List.replicate (2 * level) 0x20 ++ 0x7D :: rest))) = some (u, rest) := by
  have hlast : entryRound step (false, u)
      (0x0A :: List.replicate (2 * level) 0x20 ++ 0x7D :: rest) =
        some (((false, u), false), rest) :=
    entryRound_last (isBlank_indent level) false rest
  cases h with
  | @cons _ _ _ t _ hfirst hmore =>
    have hmiddle := runs_entries hmore (level + 1)
      (.line (List.replicate (2 * level) 0x20 ++ 0x7D :: rest))
    have hruns := (runs_entry hfirst (level + 1) (ends_entries _ es (.line _))).trans hmiddle
    rw [entries_eq, bytes_entries, List.append_assoc]
    exact bind_of (hruns.loop hlast) _

/-- The name of an entry and its colon. -/
theorem key_entry (level : Nat) (e : String × Doc) (rest : Bytes) :
    key (entryBytes level e ++ rest) =
      some (e.1, [0x20] ++ Bytes.ofString (e.2.printAt level) ++ rest) := by
  have hname := @string_quote [] (by simp) e.1
    (0x3A :: ([0x20] ++ Bytes.ofString (e.2.printAt level) ++ rest))
  have hcolon : symbol 0x3A (0x3A :: ([0x20] ++ Bytes.ofString (e.2.printAt level) ++ rest)) =
      some ((), [0x20] ++ Bytes.ofString (e.2.printAt level) ++ rest) :=
    @symbol_of 0x3A [] _ 0x3A (by simp) rfl rfl
  unfold key entryBytes
  rw [List.append_assoc]
  exact (bind_of hname _).trans (bind_of hcolon _)

theorem Reads.map {α β : Type} {r : Reader α} {d : Doc} {a : α} (h : Reads r d a) (g : α → β) :
    Reads (r >>= fun a => pure (g a)) d (g a) := fun level lead rest hlead hrest =>
  bind_of (h level lead rest hlead hrest) _

end Wayfarer.Json
