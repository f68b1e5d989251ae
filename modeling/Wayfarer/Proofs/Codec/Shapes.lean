import Wayfarer.Proofs.Codec

/-!
# Reading back arrays, maps and variants

Every array, map or variant takes a level. A reader that may open `limit` levels
takes bytes that are nested in `levels` of them to `within levels limit a`: to
`a` if the levels suffice, and to a failure if they do not.

* `Rounds` is about the elements of an array or map, one after another;
  `Rounds.next` adds one.
* `list?_takes`, `entries?_takes` and `choice_variant` are about whole items.
-/

namespace Wayfarer

/-- What a reader comes to if it needs so many levels and may open so many. -/
def within {α : Type} (levels limit : Nat) (a : α) : Option α :=
  if levels ≤ limit then some a else none

section

variable {α β : Type} {levels levels' limit : Nat}

@[simp] theorem within_zero (a : α) : within 0 limit a = some a := if_pos (Nat.zero_le limit)

@[simp] theorem within_succ_zero (a : α) : within (levels + 1) 0 a = none :=
  if_neg (Nat.not_succ_le_zero levels)

@[simp] theorem within_succ_succ (a : α) :
    within (levels + 1) (limit + 1) a = within levels limit a := by
  simp [within]

theorem within_bind (a : α) (b : β) :
    ((within levels limit a).bind fun _ => within levels' limit b) =
      within (max levels levels') limit b := by
  unfold within
  by_cases h : levels ≤ limit
  · have hmax : max levels levels' ≤ limit ↔ levels' ≤ limit := by omega
    simp [h, hmax]
  · have hmax : ¬max levels levels' ≤ limit := by omega
    simp [h, hmax]

theorem map_within (a : α) (f : α → β) :
    (within levels limit a).map f = within levels limit (f a) := by
  unfold within
  split <;> rfl

end

/-- The most levels that an element of a list needs. -/
def deepest {γ : Type} (levels : γ → Nat) : List γ → Nat
  | [] => 0
  | c :: rest => max (levels c) (deepest levels rest)

namespace Reader

namespace Takes

variable {α β : Type} {r : Reader α} {f : α → Reader β} {bytes bytes' : Bytes}
  {levels levels' limit : Nat} {a : α} {b : β}

/-- One reader after another, within the same limit. -/
theorem both (h : r.Takes bytes (within levels limit a))
    (hf : (f a).Takes bytes' (within levels' limit b)) :
    (r >>= f).Takes (bytes ++ bytes') (within (max levels levels') limit b) := by
  rw [← within_bind a]
  refine h.bind fun a' ha => ?_
  unfold within at ha
  split at ha
  · cases ha
    exact hf
  · cases ha

/-- What is made of the result needs no more bytes. -/
theorem yields (h : r.Takes bytes (within levels limit a)) (hf : f a = Pure.pure b) :
    (r >>= f).Takes bytes (within levels limit b) := by
  have hpure : (f a).Takes [] (within 0 limit b) := by
    rw [hf, within_zero]
    exact .pure b
  have hboth := h.both hpure
  rw [List.append_nil, Nat.max_zero] at hboth
  exact hboth

end Takes

end Reader

namespace Cbor

open Reader

/-! ## Heads of items with content -/

theorem head_ne_nil (major n : Nat) : head major n ≠ [] := by
  rw [head_eq]
  exact List.cons_ne_nil _ _

section

variable {α : Type} {f : Header → Reader α} {bytes : Bytes} {x : Option α} {major n : Nat}

/-- The head of an item announces no more than follows. -/
theorem content_takes (hmajor : major < 6) (hn : n ≤ bytes.length)
    (h : (f (.ofMajor n major)).Takes bytes x) :
    (untagged >>= f).Takes (head major n ++ bytes) x := by
  intro hsize
  have hlength : n < Bytes.limit 8 := by
    rw [List.length_append] at hsize
    omega
  exact (untagged_head hmajor hlength).andThen h hsize

theorem deeper_takes {body : Nat → Reader α} {levels limit : Nat} {a : α}
    (h : ∀ limit, (body limit).Takes bytes (within levels limit a)) :
    (deeper limit body).Takes bytes (within (levels + 1) limit a) := by
  cases limit with
  | zero =>
    rw [within_succ_zero]
    exact .failure bytes
  | succ limit =>
    rw [within_succ_succ]
    exact h limit

end

/-! ## Elements, one after another -/

/-- One round of reading announced elements. -/
def round {σ : Type} (step : σ → Reader σ) (p : Option Nat × σ) :
    Reader ((Option Nat × σ) × Bool) := do
  match ← another p.1 with
  | none => pure ((none, p.2), false)
  | some rest => do
    let s ← step p.2
    pure ((rest, s), true)

/-- The last `n` announced elements are read to `found`. Every element has a
byte at least, so the loop has rounds enough for them. -/
structure Rounds {σ : Type} (step : σ → Reader σ) (n : Nat) (s : σ) (bytes : Bytes)
    (found : Option σ) : Prop where
  length_le : n ≤ bytes.length
  takes : ∀ fuel, n < fuel →
    (repeatM (round step) fuel (some n, s)).Takes bytes (found.map fun s => (none, s))

namespace Rounds

variable {σ : Type} {step : σ → Reader σ} {n : Nat} {s s₁ s₂ : σ} {bytes bytes' : Bytes}
  {levels levels' limit : Nat}

theorem stop (s : σ) : Rounds step 0 s [] (within 0 limit s) := by
  rw [within_zero]
  refine ⟨Nat.zero_le _, fun fuel hfuel => ?_⟩
  obtain ⟨fuel, rfl⟩ := Nat.exists_eq_succ_of_ne_zero (Nat.ne_of_gt hfuel)
  exact .pure (none, s)

theorem next (s₁ : σ) (hne : bytes ≠ []) (h : (step s).Takes bytes (within levels limit s₁))
    (hrest : Rounds step n s₁ bytes' (within levels' limit s₂)) :
    Rounds step (n + 1) s (bytes ++ bytes') (within (max levels levels') limit s₂) := by
  have hpos := List.length_pos_iff.2 hne
  have hlength := hrest.length_le
  refine ⟨by rw [List.length_append]; omega, fun fuel hfuel => ?_⟩
  obtain ⟨fuel, rfl⟩ := Nat.exists_eq_succ_of_ne_zero (Nat.ne_of_gt (Nat.zero_lt_of_lt hfuel))
  have hround : (round step (some (n + 1), s)).Takes bytes
      (within levels limit ((some n, s₁), true)) :=
    h.yields (f := fun s => pure ((some n, s), true)) rfl
  have hmore := hrest.takes fuel (by omega)
  rw [map_within] at hmore ⊢
  exact hround.both hmore

theorem forEach {found : Option σ} (h : Rounds step n s bytes found) :
    (Cbor.forEach (some n) s step).Takes bytes found := by
  intro hsize rest
  have hlength := h.length_le
  have hloop := h.takes ((bytes ++ rest).length + 1) (by rw [List.length_append]; omega) hsize rest
  show (loop (some n, s) (round step) (bytes ++ rest)).bind (fun p => some (p.1.2, p.2)) = _
  rw [loop, hloop]
  cases found <;> rfl

/-- Elements that are read alike, each of them added to what was read before. -/
theorem fold {γ : Type} (write : γ → Bytes) (level : γ → Nat) (add : σ → γ → σ) (cs : List γ)
    (hne : ∀ c, write c ≠ [])
    (h : ∀ c ∈ cs, ∀ s, (step s).Takes (write c) (within (level c) limit (add s c))) (s : σ) :
    Rounds step cs.length s (cs.map write).flatten
      (within (deepest level cs) limit (cs.foldl add s)) := by
  induction cs generalizing s with
  | nil => exact stop s
  | cons c rest ih =>
    refine next (add s c) (hne c) (h c List.mem_cons_self s) ?_
    exact ih (fun c' hc' => h c' (List.mem_cons_of_mem c hc')) (add s c)

/-- Elements that are gathered in a list. -/
theorem gather {γ : Type} {write : γ → Bytes} (level : γ → Nat)
    {step : List γ → Reader (List γ)} (cs : List γ) (hne : ∀ c, write c ≠ [])
    (h : ∀ c ∈ cs, ∀ acc, (step acc).Takes (write c) (within (level c) limit (acc ++ [c]))) :
    Rounds step cs.length [] (cs.map write).flatten (within (deepest level cs) limit cs) := by
  have happend : ∀ (xs acc : List γ), xs.foldl (fun acc x => acc ++ [x]) acc = acc ++ xs := by
    intro xs
    induction xs with
    | nil => simp
    | cons x rest ih => simp [ih]
  have hfold := fold write level (fun acc c => acc ++ [c]) cs hne h []
  rw [happend, List.nil_append] at hfold
  exact hfold

end Rounds

section

variable {α β σ : Type} {limit : Nat}

/-! ## Whole items -/

theorem list?_takes {item : Nat → Reader α} {write : α → Bytes} {level : α → Nat} {xs : List α}
    (hne : ∀ x, write x ≠ [])
    (h : ∀ x ∈ xs, ∀ limit, (item limit).Takes (write x) (within (level x) limit x)) :
    (list? limit item).Takes (array (xs.map write)) (within (deepest level xs + 1) limit xs) := by
  have hrounds : ∀ limit, Rounds (fun acc => do pure (acc ++ [← item limit])) xs.length []
      (xs.map write).flatten (within (deepest level xs) limit xs) := fun limit =>
    .gather level xs hne fun x hx acc => (h x hx limit).yields rfl
  rw [array, List.length_map]
  exact content_takes (by decide) (hrounds 0).length_le
    (deeper_takes fun limit => (hrounds limit).forEach)

/-- The entries of a map, in the order in which they were written. -/
theorem entries?_takes {step : Nat → σ → Reader σ} {s : σ} (s' : σ) {n levels : Nat} {bytes : Bytes}
    (h : ∀ limit, Rounds (step limit) n s bytes (within levels limit s')) :
    (entries? limit s step).Takes (head 5 n ++ bytes) (within (levels + 1) limit s') :=
  content_takes (by decide) (h 0).length_le (deeper_takes fun limit => (h limit).forEach)

theorem name?_takes {name : String} (h : (Bytes.ofString name).length ≤ maxNameLength) :
    name?.Takes (text name) (some (Bytes.ofString name)) := by
  refine content_takes (by decide) (Nat.le_refl _) ?_
  show (if _ ≤ maxNameLength then _ else failure : Reader Bytes).Takes _ _
  rw [if_pos h]
  refine (take_takes _).finish ?_
  show (utf8 _ >>= fun _ => pure _).Takes [] _
  rw [utf8, Bytes.toString?_ofString]
  exact .pure _

/-- A field of a record, or the name of a variant with what follows. -/
theorem named_takes {name : String} {bytes : Bytes} {next : Bytes → Reader σ} {x : Option σ}
    (hname : (Bytes.ofString name).length ≤ maxNameLength)
    (h : (next (Bytes.ofString name)).Takes bytes x) :
    (name? >>= next).Takes (text name ++ bytes) x :=
  (name?_takes hname).andThen h

theorem choice_of_map {body : Nat → Bytes → Reader α} {bytes rest : Bytes}
    (h : untagged bytes = some (.map (some 1), rest)) :
    choice limit body bytes = deeper limit (fun limit => do body limit (← name?)) rest := by
  unfold choice
  rw [h]
  rfl

theorem choice_of_text {body : Nat → Bytes → Reader α} {bytes rest : Bytes} {n : Option Nat}
    (h : untagged bytes = some (.text n, rest)) :
    choice limit body bytes = deeper limit (fun limit => do body limit (← name?)) bytes := by
  unfold choice
  rw [h]
  rfl

/-- No variant fits into no level. -/
theorem choice_zero {body : Nat → Bytes → Reader α} : choice 0 body = failure := by
  funext bytes
  unfold choice
  cases untagged bytes with
  | none => rfl
  | some p =>
    obtain ⟨h, rest⟩ := p
    simp only [bind, Option.bind]
    split <;> rfl

theorem choice_congr {body body' : Nat → Bytes → Reader α}
    (h : ∀ l, limit = l + 1 → body l = body' l) : choice limit body = choice limit body' := by
  cases limit with
  | zero => rw [choice_zero, choice_zero]
  | succ l =>
    unfold choice deeper
    simp only [h l rfl]

theorem choice_variant {body : Nat → Bytes → Reader α} {name : String} {content : Bytes} {a : α}
    {levels : Nat} (hname : (Bytes.ofString name).length ≤ maxNameLength)
    (h : ∀ limit, (body limit (Bytes.ofString name)).Takes content (within levels limit a)) :
    (choice limit body).Takes (variant name content) (within (levels + 1) limit a) := by
  intro hsize rest
  have hbody : (deeper limit fun limit => do body limit (← name?)).Takes (text name ++ content)
      (within (levels + 1) limit a) := deeper_takes fun limit => named_takes hname (h limit)
  have hentry : variant name content = head 5 1 ++ (text name ++ content) := by
    simp [variant, map]
  rw [hentry] at hsize ⊢
  rw [List.length_append] at hsize
  rw [List.append_assoc, choice_of_map (untagged_head (by decide) (by decide) (by omega) _)]
  exact hbody (by omega) rest

/-- The name of a variant without content is read anew after its head has told
it from a map. -/
theorem choice_text {body : Nat → Bytes → Reader α} {name : String} {a : α}
    (hname : (Bytes.ofString name).length ≤ maxNameLength)
    (h : ∀ limit, (body limit (Bytes.ofString name)).Takes [] (some a)) :
    (choice limit body).Takes (text name) (within 1 limit a) := by
  intro hsize rest
  have hbody : (deeper limit fun limit => do body limit (← name?)).Takes (text name)
      (within 1 limit a) := deeper_takes fun limit => by
    rw [within_zero]
    exact (name?_takes hname).finish (h limit)
  have hhead : untagged (text name ++ rest) = some (.text (some (Bytes.ofString name).length),
      Bytes.ofString name ++ rest) := by
    rw [text, List.length_append] at hsize
    rw [text, List.append_assoc]
    exact untagged_head (by decide) (Nat.lt_of_le_of_lt hname (by decide)) (by omega) _
  rw [choice_of_text hhead]
  exact hbody hsize rest

theorem exactly_takes {item : Reader α} {write : α → Bytes} (xs : List α)
    (h : ∀ x, item.Takes (write x) (some x)) :
    (exactly item xs.length (some xs.length)).Takes (xs.map write).flatten (some xs) := by
  induction xs with
  | nil => exact .pure []
  | cons x rest ih =>
    refine (h x).andThen (f := fun x => do
      pure (x :: (← exactly item rest.length (some rest.length)))) ?_
    exact ih.finish (.pure (x :: rest))

theorem length_le_flatten {write : α → Bytes} (hne : ∀ x, write x ≠ []) (xs : List α) :
    xs.length ≤ (xs.map write).flatten.length := by
  induction xs with
  | nil => exact Nat.le_refl 0
  | cons x rest ih =>
    have hpos := List.length_pos_iff.2 (hne x)
    simp only [List.map_cons, List.flatten_cons, List.length_append, List.length_cons]
    omega

theorem fixed?_takes {n : Nat} {bytes : Bytes} (hn : bytes.length = n) :
    (fixed? limit n).Takes (array (bytes.map fun b => natural b.toNat)) (within 1 limit bytes) := by
  subst hn
  rw [array, List.length_map]
  refine content_takes (by decide) ?_ (deeper_takes fun limit => ?_)
  · exact length_le_flatten (fun b => head_ne_nil 0 b.toNat) bytes
  · rw [within_zero]
    exact exactly_takes bytes byte?_takes

theorem pair?_takes {first : Nat → Reader α} {second : Nat → Reader β} {a : α} {b : β}
    {bytes bytes' : Bytes} {levels levels' : Nat} (hne : bytes ≠ []) (hne' : bytes' ≠ [])
    (hfirst : ∀ limit, (first limit).Takes bytes (within levels limit a))
    (hsecond : ∀ limit, (second limit).Takes bytes' (within levels' limit b)) :
    (pair? limit first second).Takes (array [bytes, bytes'])
      (within (max levels levels' + 1) limit (a, b)) := by
  have hpos := List.length_pos_iff.2 hne
  have hpos' := List.length_pos_iff.2 hne'
  have hcontent : array [bytes, bytes'] = head 4 2 ++ (bytes ++ bytes') := by simp [array]
  rw [hcontent]
  refine content_takes (by decide) ?_ (deeper_takes fun limit => ?_)
  · rw [List.length_append]
    omega
  · refine (hfirst limit).both (f := fun a => do pure (a, ← second limit)) ?_
    exact (hsecond limit).yields rfl

theorem option?_null (item : Reader α) : (option? item).Takes null (some none) := by
  intro hsize rest
  have hhead : header (null ++ rest) = some (.simple 22, rest) :=
    header_simple (n := 22) (by decide) hsize rest
  simp only [option?, peek, bind, StateT.bind, hhead]
  show (header (null ++ rest)).bind (fun p => some (none, p.2)) = _
  rw [hhead]
  rfl

theorem option?_of_header {item : Reader α} {bytes rest : Bytes} {h : Header}
    (hhead : header bytes = some (h, rest)) (hsimple : ∀ n, h ≠ .simple n) :
    option? item bytes = (item bytes).map fun p => (some p.1, p.2) := by
  simp only [option?, peek, bind, StateT.bind, hhead]
  cases h with
  | simple n => exact absurd rfl (hsimple n)
  | _ =>
    show (item bytes).bind (fun p => some (some p.1, p.2)) = _
    cases item bytes <;> rfl

/-- An item that is announced by a head of a major type is something. -/
theorem option?_head {item : Reader α} {bytes : Bytes} {major n : Nat} {x : Option α}
    (hmajor : major < 6) (hn : n ≤ bytes.length) (h : item.Takes (head major n ++ bytes) x) :
    (option? item).Takes (head major n ++ bytes) (x.map some) := by
  intro hsize rest
  have hhead : header (head major n ++ bytes ++ rest) = some (.ofMajor n major, bytes ++ rest) := by
    rw [List.length_append] at hsize
    rw [List.append_assoc]
    exact header_head hmajor (by omega) (by omega) _
  rw [option?_of_header hhead, h hsize]
  · cases x <;> rfl
  · match major, hmajor with
    | 0, _ | 1, _ | 2, _ | 3, _ | 4, _ | 5, _ => exact fun n => Header.noConfusion

end

end Cbor

end Wayfarer
