import Mathlib.Algebra.Order.Group.Nat
import Mathlib.Algebra.Ring.Nat
import Mathlib.Data.List.Nodup

/-!
# Tagged fields

Messages as sequences of tagged fields, and the loop that a compiler of message descriptions emits
to read them. The loop reads a tag, switches on it and reads the field; a tag it does not know is
skipped and kept. After a field it tries to guess the next tag and, if the guess is right, jumps
into the case of that tag without going through the switch.

What the loop calls is a `Runtime`, of which only the laws in `Sound` and `Lawful` are used. A
reader takes the bytes up to the end of the message and returns what it has read with the bytes that
are left. The laws speak of inputs shorter than a limit: a library may give up on longer ones, at a
place that depends on how much it has read before.

## Main results

* `Table.mergePartial_eq_plain`: the guesses change nothing.
* `Table.mergePartial_known` and `Table.mergePartial_unknown`: what one field contributes.
* `Table.mergeFromBytes_invariant`: what every field keeps holds of a message that is parsed.
* `Reads`: what a sequence of bytes does to a message, with a rule for each kind of field.
-/

namespace TaggedFields

/-- How the values of one type are read, written and measured. -/
structure Scalar (α : Type) where
  read : List UInt8 → Option (α × List UInt8)
  write : α → List UInt8
  size : α → ℕ

/-- A value uses up bytes. -/
def Scalar.Shortens {α : Type} (s : Scalar α) (limit : ℕ) : Prop :=
  ∀ {input a rest}, input.length < limit → s.read input = some (a, rest) →
    rest.length < input.length

/-- A value that fits is read back, whatever follows it, and only such values are read. -/
structure Scalar.Lawful {α : Type} (s : Scalar α) (limit : ℕ) (Fits : α → Prop) : Prop where
  read_write : ∀ {a}, Fits a → ∀ {rest}, (s.write a ++ rest).length < limit →
    s.read (s.write a ++ rest) = some (a, rest)
  length_write : ∀ {a}, Fits a → (s.write a).length = s.size a
  fits : ∀ {input a rest}, input.length < limit → s.read input = some (a, rest) → Fits a

/-- What generated code calls. `U` is the type of a field that was skipped. -/
structure Runtime (U : Type) where
  /-- Nothing is returned at the end of the message and if there is no tag. -/
  readTag : List UInt8 → Option (ℕ × List UInt8)
  /-- The number of a field and its wire type. -/
  writeTag : ℕ → ℕ → List UInt8
  /-- Read a tag if it is this one. The answer may be no even if it is. -/
  expectTag : ℕ → List UInt8 → Option (List UInt8)
  /-- Whether the message ends here. The answer may be no even if it does. -/
  expectAtEnd : List UInt8 → Bool
  /-- Skip the field of a tag, inside this many messages. -/
  skipField : ℕ → ℕ → List UInt8 → Option (U × List UInt8)
  writeUnknown : U → List UInt8
  unknownSize : U → ℕ
  string : Scalar (List UInt8)
  uint32 : Scalar UInt32
  uint64 : Scalar UInt64
  int32 : Scalar Int32
  bool : Scalar Bool
  /-- A floating point number, of which only the bits matter here. -/
  double : Scalar UInt64
  /-- Cut an embedded message off. -/
  readDelimited : List UInt8 → Option (List UInt8 × List UInt8)
  writeLength : ℕ → List UInt8
  lengthSize : ℕ → ℕ

variable {U M : Type} {limit : ℕ}

/-! The wire types. -/

def varint : ℕ := 0
def fixed64 : ℕ := 1
def lengthDelimited : ℕ := 2
def endGroup : ℕ := 4

/-- The tag of a field. -/
def tagOf (number wireType : ℕ) : ℕ := 8 * number + wireType

/-- What the loop relies on: a reader uses up what it reads, and a guess is right. -/
structure Runtime.Sound (rt : Runtime U) (limit : ℕ) : Prop where
  readTag_nil : rt.readTag [] = none
  readTag_shortens : ∀ {input tag rest}, input.length < limit →
    rt.readTag input = some (tag, rest) → rest.length < input.length
  expectTag_sound : ∀ {tag input rest}, tag ≠ 0 → input.length < limit →
    rt.expectTag tag input = some rest → rt.readTag input = some (tag, rest)
  expectAtEnd_sound : ∀ {input}, input.length < limit → rt.expectAtEnd input = true → input = []
  skipField_shortens : ∀ {depth tag input u rest}, input.length < limit →
    rt.skipField depth tag input = some (u, rest) → rest.length ≤ input.length
  string_shortens : rt.string.Shortens limit
  uint32_shortens : rt.uint32.Shortens limit
  uint64_shortens : rt.uint64.Shortens limit
  int32_shortens : rt.int32.Shortens limit
  bool_shortens : rt.bool.Shortens limit
  double_shortens : rt.double.Shortens limit
  readDelimited_shortens : ∀ {input payload rest}, input.length < limit →
    rt.readDelimited input = some (payload, rest) → payload.length + rest.length < input.length

/-- A skipped field that was written is skipped again, under the same tag and with the same
result. -/
def Runtime.Kept (rt : Runtime U) (limit depth tag : ℕ) (u : U) : Prop :=
  ∃ payload,
    (∀ rest, (rt.writeUnknown u ++ rest).length < limit →
      rt.readTag (rt.writeUnknown u ++ rest) = some (tag, payload ++ rest)) ∧
    ∀ rest, (payload ++ rest).length < limit →
      rt.skipField depth tag (payload ++ rest) = some (u, rest)

/-- What generated code relies on: it reads what it wrote. -/
structure Runtime.Lawful (rt : Runtime U) (limit : ℕ) : Prop extends rt.Sound limit where
  readTag_writeTag : ∀ {number wireType : ℕ}, number ≠ 0 → number < 2 ^ 29 → wireType < 8 →
    ∀ {rest}, (rt.writeTag number wireType ++ rest).length < limit →
      rt.readTag (rt.writeTag number wireType ++ rest) = some (tagOf number wireType, rest)
  length_writeTag : ∀ {number wireType : ℕ}, number < 16 → wireType < 8 →
    (rt.writeTag number wireType).length = 1
  length_writeTag_two : ∀ {number wireType : ℕ}, 16 ≤ number → number < 2 ^ 11 → wireType < 8 →
    (rt.writeTag number wireType).length = 2
  kept : ∀ {depth input tag rest u rest'}, input.length < limit →
    rt.readTag input = some (tag, rest) → rt.skipField depth tag rest = some (u, rest') →
    rt.Kept limit depth tag u
  length_writeUnknown : ∀ u, (rt.writeUnknown u).length = rt.unknownSize u
  string : rt.string.Lawful limit fun s ↦ s.length < 2 ^ 31
  uint32 : rt.uint32.Lawful limit fun _ ↦ True
  uint64 : rt.uint64.Lawful limit fun _ ↦ True
  int32 : rt.int32.Lawful limit fun _ ↦ True
  bool : rt.bool.Lawful limit fun _ ↦ True
  bool_size : ∀ b, rt.bool.size b = 1
  double : rt.double.Lawful limit fun _ ↦ True
  double_size : ∀ d, rt.double.size d = 8
  readDelimited_writeLength : ∀ {payload rest : List UInt8},
    (rt.writeLength payload.length ++ payload ++ rest).length < limit →
    rt.readDelimited (rt.writeLength payload.length ++ payload ++ rest) = some (payload, rest)
  length_writeLength : ∀ {n : ℕ}, n < limit → (rt.writeLength n).length = rt.lengthSize n

/-! ## The loop -/

/-- One case of the switch. -/
structure FieldCase (M : Type) where
  number : ℕ
  wireType : ℕ
  read : M → List UInt8 → Option (M × List UInt8)
  /-- The tags that are tried after the field, each with the field whose case is entered. -/
  expect : List (ℕ × ℕ) := []
  /-- Whether the end of the message is tried after the field. -/
  last : Bool := false

/-- A field uses up bytes. -/
def FieldCase.Shortens (c : FieldCase M) (limit : ℕ) : Prop :=
  ∀ {m input m' rest}, input.length < limit → c.read m input = some (m', rest) →
    rest.length < input.length

/-- A field keeps `P`. -/
def FieldCase.Keeps (c : FieldCase M) (limit : ℕ) (P : M → Prop) : Prop :=
  ∀ {m input m' rest}, input.length < limit → c.read m input = some (m', rest) → P m → P m'

/-- The switch over the tags of a message. -/
structure Table (M U : Type) where
  cases : List (FieldCase M)
  addUnknown : M → U → M
  /-- How many messages the message is embedded in. -/
  depth : ℕ := 0

/-- How the loop goes on. -/
inductive Next (M : Type) where
  | fail
  /-- The loop ends; the flag says whether it has reached the end of the message. -/
  | done (m : M) (consumed : Bool)
  /-- The loop goes on at its head, or inside a case whose tag has been read. -/
  | go (m : M) (input : List UInt8) (entry : Option (FieldCase M))

/-- Go on with `loop`. -/
def Next.resume (loop : Option (FieldCase M) → M → List UInt8 → Option (M × Bool)) :
    Next M → Option (M × Bool)
  | fail => none
  | done m consumed => some (m, consumed)
  | go m input entry => loop entry m input

namespace Table

variable (rt : Runtime U) (t : Table M U)

def case? (number : ℕ) : Option (FieldCase M) := t.cases.find? (·.number = number)

/-- The case of a tag. A number of the message under another wire type has none. -/
def known? (tag : ℕ) : Option (FieldCase M) :=
  (t.case? (tag / 8)).filter (·.wireType = tag % 8)

/-- What follows a field. -/
def after (c : FieldCase M) (m : M) (input : List UInt8) : Next M :=
  match c.expect.findSome? fun e ↦ (rt.expectTag e.1 input).map fun rest ↦ (e.2, rest) with
  | some (number, rest) =>
    match t.case? number with
    | some c' => .go m rest (some c')
    | none => .fail
  | none => if c.last && rt.expectAtEnd input then .done m true else .go m input none

/-- The body of a case, after its label. -/
def parse (c : FieldCase M) (m : M) (input : List UInt8) : Next M :=
  match c.read m input with
  | none => .fail
  | some (m', rest) => t.after rt c m' rest

def step (entry : Option (FieldCase M)) (m : M) (input : List UInt8) : Next M :=
  match entry with
  | some c => t.parse rt c m input
  | none =>
    match rt.readTag input with
    | none => .done m input.isEmpty
    | some (tag, rest) =>
      match t.known? tag with
      | some c => t.parse rt c m rest
      | none =>
        if tag % 8 = endGroup then .done m false
        else
          match rt.skipField t.depth tag rest with
          | none => .fail
          | some (u, rest') => .go (t.addUnknown m u) rest' none

def merge : ℕ → Option (FieldCase M) → M → List UInt8 → Option (M × Bool)
  | 0, _, _, _ => none
  | fuel + 1, entry, m, input => (t.step rt entry m input).resume (merge fuel)

/-- `MergePartialFromCodedStream`. A failure returns nothing; otherwise the flag says whether the
whole message was consumed. -/
def mergePartial (m : M) (input : List UInt8) : Option (M × Bool) :=
  t.merge rt (input.length + 1) none m input

/-- Parsing into a message succeeds if it reaches the end. -/
def mergeFromBytes (m : M) (input : List UInt8) : Option M :=
  match t.mergePartial rt m input with
  | some (m', true) => some m'
  | _ => none

/-! ## The loop without its shortcuts -/

/-- One field, or the result of the loop. -/
def field (m : M) (input : List UInt8) : Option (M × Bool) ⊕ (M × List UInt8) :=
  match rt.readTag input with
  | none => .inl (some (m, input.isEmpty))
  | some (tag, rest) =>
    match t.known? tag with
    | some c => (c.read m rest).elim (.inl none) .inr
    | none =>
      if tag % 8 = endGroup then .inl (some (m, false))
      else
        (rt.skipField t.depth tag rest).elim (.inl none) fun r ↦ .inr (t.addUnknown m r.1, r.2)

def plainMerge : ℕ → M → List UInt8 → Option (M × Bool)
  | 0, _, _ => none
  | fuel + 1, m, input => (t.field rt m input).elim id fun r ↦ plainMerge fuel r.1 r.2

/-- A loop that reads every tag at its head. -/
def plain (m : M) (input : List UInt8) : Option (M × Bool) :=
  t.plainMerge rt (input.length + 1) m input

/-- A table whose numbers are distinct, whose guesses lead to the case of the tag and whose readers
use up bytes. -/
structure Coherent (t : Table M U) (limit : ℕ) : Prop where
  nodup : (t.cases.map FieldCase.number).Nodup
  number_pos : ∀ c ∈ t.cases, c.number ≠ 0 ∧ c.number < 2 ^ 29
  wireType_lt : ∀ c ∈ t.cases, c.wireType < 8
  expect : ∀ c ∈ t.cases, ∀ e ∈ c.expect,
    ∃ c' ∈ t.cases, c'.number = e.2 ∧ tagOf c'.number c'.wireType = e.1
  shortens : ∀ c ∈ t.cases, c.Shortens limit

variable {rt t} {c : FieldCase M} {m m' : M} {input rest : List UInt8} {tag : ℕ}

theorem number_of_case? {number : ℕ} (h : t.case? number = some c) : c.number = number := by
  simpa using List.find?_some h

theorem Coherent.case?_eq (ht : t.Coherent limit) (hc : c ∈ t.cases) :
    t.case? c.number = some c := by
  obtain ⟨c', hc'⟩ : ∃ c', t.case? c.number = some c' := by
    rw [← Option.isSome_iff_exists, case?, List.find?_isSome]
    exact ⟨c, hc, decide_eq_true rfl⟩
  have hmem : c' ∈ t.cases := List.mem_of_find?_eq_some hc'
  rw [hc', List.inj_on_of_nodup_map ht.nodup hmem hc (number_of_case? hc')]

theorem Coherent.known?_tagOf (ht : t.Coherent limit) (hc : c ∈ t.cases) :
    t.known? (tagOf c.number c.wireType) = some c := by
  have hw := ht.wireType_lt c hc
  have hdiv : tagOf c.number c.wireType / 8 = c.number := by rw [tagOf]; omega
  have hmod : tagOf c.number c.wireType % 8 = c.wireType := by rw [tagOf]; omega
  rw [known?, hdiv, hmod, ht.case?_eq hc, Option.filter_some, if_pos (decide_eq_true rfl)]

theorem mem_of_known? (h : t.known? tag = some c) : c ∈ t.cases := by
  rw [known?, Option.filter_eq_some_iff] at h
  exact List.mem_of_find?_eq_some h.1

/-- **A guess leads where the switch would.** -/
theorem step_label (hrt : rt.Sound limit) (ht : t.Coherent limit) (hc : c ∈ t.cases)
    (hlt : input.length < limit)
    (h : rt.expectTag (tagOf c.number c.wireType) input = some rest) (m : M) :
    t.step rt none m input = t.step rt (some c) m rest := by
  have h0 : tagOf c.number c.wireType ≠ 0 := by
    have := (ht.number_pos c hc).1
    rw [tagOf]
    omega
  simp only [step, hrt.expectTag_sound h0 hlt h, ht.known?_tagOf hc]

/-- After a field the loop goes on as from its head. -/
theorem resume_after (hrt : rt.Sound limit) (ht : t.Coherent limit) (hc : c ∈ t.cases) (m : M)
    (hlt : input.length < limit) (fuel : ℕ) :
    (t.after rt c m input).resume (t.merge rt (fuel + 1)) =
      t.merge rt (fuel + 1) none m input := by
  rw [after]
  split
  next number rest hfind =>
    -- the tag that was recognised is the one that the loop would have read
    obtain ⟨e, he, heq⟩ := List.exists_of_findSome?_eq_some hfind
    obtain ⟨rest', hexp, heq⟩ := Option.map_eq_some_iff.mp heq
    obtain ⟨rfl, rfl⟩ := Prod.ext_iff.mp heq
    obtain ⟨c', hc', hnum, htag⟩ := ht.expect c hc e he
    rw [← htag] at hexp
    rw [← hnum, ht.case?_eq hc']
    simp only [Next.resume, merge]
    rw [step_label hrt ht hc' hlt hexp]
  next =>
    split_ifs with hend
    · obtain rfl := hrt.expectAtEnd_sound hlt (Bool.and_eq_true _ _ ▸ hend).2
      simp only [Next.resume, merge, step, hrt.readTag_nil, List.isEmpty_nil]
    · rfl

/-- A tag that is skipped. -/
def Skipped (t : Table M U) (tag : ℕ) : Prop := t.known? tag = none ∧ tag % 8 ≠ endGroup

/-- The loop ends with the message it has. -/
theorem eq_of_field_eq_inl {b : Bool} (h : t.field rt m input = .inl (some (m', b))) : m' = m := by
  rw [field] at h
  split at h
  · exact (Prod.ext_iff.mp (Option.some.inj (Sum.inl.inj h))).1.symm
  · rename_i tag rest₀ htag
    split at h
    · rename_i c hc
      cases hr : c.read m rest₀ <;> rw [hr] at h <;> cases h
    · split_ifs at h
      · exact (Prod.ext_iff.mp (Option.some.inj (Sum.inl.inj h))).1.symm
      · cases hr : rt.skipField t.depth tag rest₀ <;> rw [hr] at h <;> cases h

/-- The loop goes on after a field of the message or after one that is skipped. -/
theorem field_eq_inr {r : M × List UInt8} (h : t.field rt m input = .inr r) :
    ∃ tag rest, rt.readTag input = some (tag, rest) ∧
      ((∃ c ∈ t.cases, c.read m rest = some r) ∨
        ∃ u, t.Skipped tag ∧ rt.skipField t.depth tag rest = some (u, r.2) ∧
          r.1 = t.addUnknown m u) := by
  rw [field] at h
  split at h
  · cases h
  · rename_i tag rest₀ htag
    refine ⟨tag, rest₀, htag, ?_⟩
    split at h
    · rename_i c hc
      cases hr : c.read m rest₀ with
      | none => rw [hr] at h; cases h
      | some r =>
        rw [hr] at h
        exact Or.inl ⟨c, mem_of_known? hc, hr.trans (congrArg some (Sum.inr.inj h))⟩
    · rename_i hknown
      split_ifs at h with hend
      cases hr : rt.skipField t.depth tag rest₀ with
      | none => rw [hr] at h; cases h
      | some p =>
        rw [hr] at h
        obtain rfl := Sum.inr.inj h
        exact Or.inr ⟨p.1, ⟨hknown, hend⟩, rfl, rfl⟩

/-- A field uses up bytes. -/
theorem field_shortens (hrt : rt.Sound limit) (ht : t.Coherent limit) (hlt : input.length < limit)
    {r : M × List UInt8} (h : t.field rt m input = .inr r) : r.2.length < input.length := by
  obtain ⟨tag, rest, htag, ⟨c, hc, hread⟩ | ⟨u, -, hskip, -⟩⟩ := field_eq_inr h
  · have hrest := hrt.readTag_shortens hlt htag
    exact (ht.shortens c hc (hrest.trans hlt) hread).trans hrest
  · have hrest := hrt.readTag_shortens hlt htag
    exact (hrt.skipField_shortens (hrest.trans hlt) hskip).trans_lt hrest

/-- One turn of the loop is one field, and the loop goes on as from its head. -/
theorem merge_succ (hrt : rt.Sound limit) (ht : t.Coherent limit) (hlt : input.length < limit)
    (m : M) (fuel : ℕ) :
    t.merge rt (fuel + 2) none m input =
      (t.field rt m input).elim id fun r ↦ t.merge rt (fuel + 1) none r.1 r.2 := by
  rw [merge, step, field]
  cases htag : rt.readTag input with
  | none => rfl
  | some r =>
    obtain ⟨tag, rest⟩ := r
    have hrest : rest.length < limit := (hrt.readTag_shortens hlt htag).trans hlt
    dsimp only
    cases hc : t.known? tag with
    | some c =>
      have hmem := mem_of_known? hc
      dsimp only [parse]
      cases hr : c.read m rest with
      | none => rfl
      | some r =>
        exact resume_after hrt ht hmem r.1 ((ht.shortens c hmem hrest hr).trans hrest) fuel
    | none =>
      dsimp only
      split_ifs
      · rfl
      · cases rt.skipField t.depth tag rest with
        | none => rfl
        | some r => rfl

theorem merge_eq_plainMerge (hrt : rt.Sound limit) (ht : t.Coherent limit) {fuel : ℕ} {m : M}
    (hlt : input.length < limit) (h : input.length < fuel) :
    t.merge rt fuel none m input = t.plainMerge rt fuel m input := by
  induction fuel generalizing m input with
  | zero => omega
  | succ fuel ih =>
    rcases fuel with _ | fuel
    · -- there is fuel for the end of the message only
      obtain rfl : input = [] := List.length_eq_zero_iff.mp (by omega)
      simp only [merge, step, plainMerge, field, hrt.readTag_nil]
      rfl
    · rw [merge_succ hrt ht hlt, plainMerge]
      cases hf : t.field rt m input with
      | inl r => rfl
      | inr r =>
        have hr := field_shortens hrt ht hlt hf
        exact ih (hr.trans hlt) (by omega)

/-- **The guesses change nothing**: the loop reads what the loop without them reads. -/
theorem mergePartial_eq_plain (hrt : rt.Sound limit) (ht : t.Coherent limit) (m : M)
    (hlt : input.length < limit) : t.mergePartial rt m input = t.plain rt m input :=
  merge_eq_plainMerge hrt ht hlt (Nat.lt_succ_self _)

theorem plainMerge_eq (hrt : rt.Sound limit) (ht : t.Coherent limit) {fuel fuel' : ℕ} {m : M}
    (hlt : input.length < limit) (h : input.length < fuel) (h' : input.length < fuel') :
    t.plainMerge rt fuel m input = t.plainMerge rt fuel' m input := by
  induction fuel generalizing m input fuel' with
  | zero => omega
  | succ fuel ih =>
    obtain ⟨fuel', rfl⟩ : ∃ k, fuel' = k + 1 := Nat.exists_eq_add_one.mpr (by omega)
    rw [plainMerge, plainMerge]
    cases hf : t.field rt m input with
    | inl r => rfl
    | inr r =>
      have hr := field_shortens hrt ht hlt hf
      exact ih (hr.trans hlt) (by omega) (by omega)

/-- One field, then the rest of the message. -/
theorem mergePartial_eq (hrt : rt.Sound limit) (ht : t.Coherent limit) (m : M)
    (hlt : input.length < limit) :
    t.mergePartial rt m input =
      (t.field rt m input).elim id fun r ↦ t.mergePartial rt r.1 r.2 := by
  rw [mergePartial_eq_plain hrt ht m hlt, plain, plainMerge]
  cases hf : t.field rt m input with
  | inl r => rfl
  | inr r =>
    have hr := field_shortens hrt ht hlt hf
    rw [Sum.elim_inr, Sum.elim_inr, mergePartial_eq_plain hrt ht r.1 (hr.trans hlt), plain]
    exact plainMerge_eq hrt ht (hr.trans hlt) (by omega) (by omega)

theorem mergePartial_nil (hrt : rt.Sound limit) (ht : t.Coherent limit) (hpos : 0 < limit) (m : M) :
    t.mergePartial rt m [] = some (m, true) := by
  have hlt : ([] : List UInt8).length < limit := hpos
  rw [mergePartial_eq hrt ht m hlt, field, hrt.readTag_nil]
  rfl

/-- A field of the message is read by its case. -/
theorem mergePartial_known (hrt : rt.Lawful limit) (ht : t.Coherent limit) (hc : c ∈ t.cases)
    (hlt : (rt.writeTag c.number c.wireType ++ input).length < limit)
    (h : c.read m input = some (m', rest)) :
    t.mergePartial rt m (rt.writeTag c.number c.wireType ++ input) =
      t.mergePartial rt m' rest := by
  have hnum := ht.number_pos c hc
  have htag := hrt.readTag_writeTag hnum.1 hnum.2 (ht.wireType_lt c hc) hlt
  rw [mergePartial_eq hrt.toSound ht m hlt, field, htag]
  simp only [ht.known?_tagOf hc, h, Option.elim_some, Sum.elim_inr]

/-- A field the message does not know is kept. -/
theorem mergePartial_unknown (hrt : rt.Sound limit) (ht : t.Coherent limit) {u : U}
    (hu : rt.Kept limit t.depth tag u) (h : t.Skipped tag) (m : M)
    (hlt : (rt.writeUnknown u ++ rest).length < limit) :
    t.mergePartial rt m (rt.writeUnknown u ++ rest) =
      t.mergePartial rt (t.addUnknown m u) rest := by
  obtain ⟨payload, hread, hskip⟩ := hu
  have hrest := (hrt.readTag_shortens hlt (hread rest hlt)).trans hlt
  rw [mergePartial_eq hrt ht m hlt, field, hread rest hlt]
  simp only [h.1, if_neg h.2, hskip rest hrest, Option.elim_some, Sum.elim_inr]

/-- What every field keeps holds of the message that is read. -/
theorem mergePartial_invariant (hrt : rt.Lawful limit) (ht : t.Coherent limit) {P : M → Prop}
    (hread : ∀ c ∈ t.cases, c.Keeps limit P)
    (hskip : ∀ {m tag u}, rt.Kept limit t.depth tag u → t.Skipped tag → P m →
      P (t.addUnknown m u))
    {b : Bool} (hlt : input.length < limit) (h : t.mergePartial rt m input = some (m', b))
    (hm : P m) : P m' := by
  -- on the bytes that are left, of which every field uses some up
  induction hn : input.length using Nat.strongRecOn generalizing m input with
  | _ n ih =>
    rw [mergePartial_eq hrt.toSound ht m hlt] at h
    cases hf : t.field rt m input with
    | inl r =>
      rw [hf, Sum.elim_inl, id] at h
      rw [eq_of_field_eq_inl (hf.trans (congrArg _ h))]
      exact hm
    | inr r =>
      rw [hf, Sum.elim_inr] at h
      have hr := field_shortens hrt.toSound ht hlt hf
      refine ih _ (hn ▸ hr) (hr.trans hlt) h ?_ rfl
      obtain ⟨tag, rest, htag, ⟨c, hc, hr⟩ | ⟨u, hsk, hr, hr'⟩⟩ := field_eq_inr hf
      · exact hread c hc ((hrt.readTag_shortens hlt htag).trans hlt) hr hm
      · rw [hr']
        exact hskip (hrt.kept hlt htag hr) hsk hm

/-- **What every field keeps holds of a message that is parsed.** -/
theorem mergeFromBytes_invariant (hrt : rt.Lawful limit) (ht : t.Coherent limit) {P : M → Prop}
    (hread : ∀ c ∈ t.cases, c.Keeps limit P)
    (hskip : ∀ {m tag u}, rt.Kept limit t.depth tag u → t.Skipped tag → P m →
      P (t.addUnknown m u))
    (hlt : input.length < limit) (h : t.mergeFromBytes rt m input = some m') (hm : P m) :
    P m' := by
  rw [mergeFromBytes] at h
  split at h
  · rename_i m'' hmerge
    obtain rfl := Option.some.inj h
    exact mergePartial_invariant hrt ht hread hskip hlt hmerge hm
  · cases h

end Table

/-! ## Cases of the switch -/

/-- One field of a message. -/
structure Slot (M β : Type) where
  get : M → β
  set : M → β → M
  set_get : ∀ m, set m (get m) = m

/-- Elements appended one after the other. -/
theorem Slot.foldl_append {α : Type} (slot : Slot M (List α))
    (hget : ∀ m v, slot.get (slot.set m v) = v)
    (hset : ∀ m v w, slot.set (slot.set m v) w = slot.set m w) (as : List α) (m : M) :
    as.foldl (fun m a ↦ slot.set m (slot.get m ++ [a])) m = slot.set m (slot.get m ++ as) := by
  induction as generalizing m with
  | nil => rw [List.append_nil, slot.set_get, List.foldl_nil]
  | cons a as ih =>
    rw [List.foldl_cons, ih, hget, hset, List.append_assoc, List.singleton_append]

namespace FieldCase

variable {α N : Type}

/-- The case of an optional field: the last value read is kept. -/
def optional (s : Scalar α) (slot : Slot M (Option α)) (number wireType : ℕ)
    (expect : List (ℕ × ℕ)) (last : Bool := false) : FieldCase M where
  number := number
  wireType := wireType
  read m input := (s.read input).map fun r ↦ (slot.set m (some r.1), r.2)
  expect := expect
  last := last

/-- The case of an embedded message, which is read with a table of its own into what `start` takes
from the enclosing one. -/
def message (rt : Runtime U) (sub : Table N U) (start : M → N) (put : M → N → M) (number : ℕ)
    (expect : List (ℕ × ℕ)) (last : Bool) : FieldCase M where
  number := number
  wireType := lengthDelimited
  read m input := do
    let (payload, rest) ← rt.readDelimited input
    let n ← sub.mergeFromBytes rt (start m) payload
    return (put m n, rest)
  expect := expect
  last := last

variable {rt : Runtime U} {s : Scalar α} {slot : Slot M (Option α)} {sub : Table N U}
  {start : M → N} {put : M → N → M} {number wireType : ℕ} {expect : List (ℕ × ℕ)} {last : Bool}
  {m m' : M} {input rest : List UInt8}

theorem read_optional_eq_some
    (h : (optional s slot number wireType expect last).read m input = some (m', rest)) :
    ∃ a, s.read input = some (a, rest) ∧ m' = slot.set m (some a) := by
  obtain ⟨r, hr, heq⟩ := Option.map_eq_some_iff.mp h
  obtain ⟨rfl, rfl⟩ := Prod.ext_iff.mp heq
  exact ⟨r.1, hr, rfl⟩

theorem read_message_eq_some
    (h : (message rt sub start put number expect last).read m input = some (m', rest)) :
    ∃ payload n, rt.readDelimited input = some (payload, rest) ∧
      sub.mergeFromBytes rt (start m) payload = some n ∧ m' = put m n := by
  obtain ⟨⟨payload, rest'⟩, hdel, h⟩ := Option.bind_eq_some_iff.mp h
  obtain ⟨n, hn, h⟩ := Option.bind_eq_some_iff.mp h
  obtain ⟨rfl, rfl⟩ := Prod.ext_iff.mp (Option.some.inj h)
  exact ⟨payload, n, hdel, hn, rfl⟩

theorem shortens_optional (hs : s.Shortens limit) :
    (optional s slot number wireType expect last).Shortens limit := by
  intro m input m' rest hlt hread
  obtain ⟨a, ha, -⟩ := read_optional_eq_some hread
  exact hs hlt ha

theorem shortens_message (hrt : rt.Sound limit) :
    (message rt sub start put number expect last).Shortens limit := by
  intro m input m' rest hlt hread
  obtain ⟨payload, n, hdel, -⟩ := read_message_eq_some hread
  have := hrt.readDelimited_shortens hlt hdel
  omega

theorem keeps_optional {Fits : α → Prop} (hs : s.Lawful limit Fits) {P : M → Prop}
    (h : ∀ m a, Fits a → P m → P (slot.set m (some a))) :
    (optional s slot number wireType expect last).Keeps limit P := by
  intro m input m' rest hlt hread hm
  obtain ⟨a, ha, rfl⟩ := read_optional_eq_some hread
  exact h m a (hs.fits hlt ha) hm

theorem keeps_message (hrt : rt.Sound limit) {P : M → Prop}
    (h : ∀ m payload n, payload.length < limit →
      sub.mergeFromBytes rt (start m) payload = some n → P m → P (put m n)) :
    (message rt sub start put number expect last).Keeps limit P := by
  intro m input m' rest hlt hread hm
  obtain ⟨payload, n, hdel, hn, rfl⟩ := read_message_eq_some hread
  have := hrt.readDelimited_shortens hlt hdel
  exact h m payload n (by omega) hn hm

end FieldCase

/-- The part of a table that does not depend on the runtime. -/
def Table.shape (t : Table M U) : List (ℕ × ℕ × List (ℕ × ℕ)) :=
  t.cases.map fun c ↦ (c.number, c.wireType, c.expect)

/-- Coherence of the numbers of a table. -/
def ShapeCoherent (l : List (ℕ × ℕ × List (ℕ × ℕ))) : Prop :=
  (l.map Prod.fst).Nodup ∧
    ∀ c ∈ l, c.1 ≠ 0 ∧ c.1 < 2 ^ 29 ∧ c.2.1 < 8 ∧
      ∀ e ∈ c.2.2, ∃ c' ∈ l, c'.1 = e.2 ∧ tagOf c'.1 c'.2.1 = e.1

instance : DecidablePred ShapeCoherent := fun _ ↦ inferInstanceAs (Decidable (_ ∧ _))

theorem Table.Coherent.of_shape {t : Table M U} (h : ShapeCoherent t.shape)
    (hs : ∀ c ∈ t.cases, c.Shortens limit) : t.Coherent limit where
  nodup := by
    have := h.1
    rwa [shape, List.map_map] at this
  number_pos c hc := by
    have := h.2 _ (List.mem_map_of_mem hc)
    exact ⟨this.1, this.2.1⟩
  wireType_lt c hc := (h.2 _ (List.mem_map_of_mem hc)).2.2.1
  expect c hc e he := by
    obtain ⟨_, hmem, h1, h2⟩ := (h.2 _ (List.mem_map_of_mem hc)).2.2.2 e he
    obtain ⟨c', hc', rfl⟩ := List.mem_map.mp hmem
    exact ⟨c', hc', h1, h2⟩
  shortens := hs

/-! ## Writing -/

section Writing

variable {α N : Type}

/-- A field with its tag. -/
def writeField (rt : Runtime U) (number wireType : ℕ) (s : Scalar α) (a : α) : List UInt8 :=
  rt.writeTag number wireType ++ s.write a

/-- An optional field is written if it is set. -/
def writeOptional (rt : Runtime U) (number wireType : ℕ) (s : Scalar α) (o : Option α) :
    List UInt8 :=
  o.elim [] (writeField rt number wireType s)

/-- An embedded message, behind the length it is said to have. -/
def writeMessage (rt : Runtime U) (number size : ℕ) (bytes : List UInt8) : List UInt8 :=
  rt.writeTag number lengthDelimited ++ (rt.writeLength size ++ bytes)

/-- The bytes `bs` do `g` to every message they are read into. -/
def Reads (rt : Runtime U) (limit : ℕ) (t : Table M U) (bs : List UInt8) (g : M → M) : Prop :=
  ∀ m rest, (bs ++ rest).length < limit →
    t.mergePartial rt m (bs ++ rest) = t.mergePartial rt (g m) rest

variable {rt : Runtime U} {t : Table M U} {sub : Table N U} {bs cs : List UInt8} {g h : M → M}
  {number : ℕ}

theorem Reads.nil : Reads rt limit t [] id := fun _ _ _ ↦ rfl

theorem Reads.append (hbs : Reads rt limit t bs g) (hcs : Reads rt limit t cs h) :
    Reads rt limit t (bs ++ cs) (h ∘ g) := by
  intro m rest hlt
  rw [List.append_assoc] at hlt ⊢
  have hlt' : (cs ++ rest).length < limit := by
    rw [List.length_append] at hlt
    omega
  rw [hbs _ _ hlt, hcs _ _ hlt', Function.comp_apply]

/-- Fields that a message has skipped. -/
def UnknownKept (rt : Runtime U) (limit : ℕ) (t : Table M U) (us : List U) : Prop :=
  ∀ u ∈ us, ∃ tag, rt.Kept limit t.depth tag u ∧ t.Skipped tag

/-- The elements of a repeated field are read one after the other. -/
theorem Reads.flatMap {β : Type} {xs : List β} {w : β → List UInt8} {f : β → M → M}
    (hxs : ∀ x ∈ xs, Reads rt limit t (w x) (f x)) :
    Reads rt limit t (xs.flatMap w) fun m ↦ xs.foldl (fun m x ↦ f x m) m := by
  induction xs with
  | nil => exact Reads.nil
  | cons x xs ih =>
    exact (hxs x List.mem_cons_self).append (ih fun y hy ↦ hxs y (List.mem_cons_of_mem _ hy))

/-- Parsing what is read. -/
theorem Reads.mergeFromBytes (hrt : rt.Sound limit) (ht : t.Coherent limit)
    (hbs : Reads rt limit t bs g) (hlt : bs.length < limit) (m : M) :
    t.mergeFromBytes rt m bs = some (g m) := by
  have h := hbs m []
  rw [List.append_nil, Table.mergePartial_nil hrt ht (Nat.zero_lt_of_lt hlt)] at h
  rw [Table.mergeFromBytes, h hlt]

theorem Reads.optional (hrt : rt.Lawful limit) (ht : t.Coherent limit) {s : Scalar α}
    {Fits : α → Prop} (hs : s.Lawful limit Fits) {slot : Slot M (Option α)} {wireType : ℕ}
    {expect : List (ℕ × ℕ)} {last : Bool}
    (hc : FieldCase.optional s slot number wireType expect last ∈ t.cases)
    {o : Option α} (ho : ∀ a ∈ o, Fits a) :
    Reads rt limit t (writeOptional rt number wireType s o) fun m ↦
      slot.set m (o <|> slot.get m) := by
  intro m rest hlt
  rcases o with _ | a
  · rw [writeOptional, Option.elim_none, List.nil_append]
    exact congrArg (t.mergePartial rt · rest) (slot.set_get m).symm
  · rw [writeOptional, Option.elim_some, writeField, List.append_assoc] at hlt ⊢
    have hlt' : (s.write a ++ rest).length < limit := by
      rw [List.length_append] at hlt
      omega
    refine Table.mergePartial_known hrt ht hc hlt ?_
    simp only [FieldCase.optional, hs.read_write (ho a rfl) hlt', Option.map_some]
    rfl

theorem Reads.message (hrt : rt.Lawful limit) (ht : t.Coherent limit) (hsub : sub.Coherent limit)
    {start : M → N} {put : M → N → M} {expect : List (ℕ × ℕ)} {last : Bool}
    (hc : FieldCase.message rt sub start put number expect last ∈ t.cases) {f : N → N}
    (hbs : Reads rt limit sub bs f) :
    Reads rt limit t (writeMessage rt number bs.length bs) fun m ↦ put m (f (start m)) := by
  intro m rest hlt
  rw [writeMessage, List.append_assoc] at hlt ⊢
  have hlt' : (rt.writeLength bs.length ++ bs ++ rest).length < limit := by
    rw [List.length_append] at hlt
    omega
  have hlen : bs.length < limit := by
    rw [List.length_append, List.length_append] at hlt'
    omega
  refine Table.mergePartial_known hrt ht hc hlt ?_
  simp only [FieldCase.message, hrt.readDelimited_writeLength hlt',
    hbs.mergeFromBytes hrt.toSound hsub hlen, Option.bind_eq_bind, Option.bind_some]
  rfl

theorem Reads.unknown (hrt : rt.Sound limit) (ht : t.Coherent limit) {us : List U}
    (hus : UnknownKept rt limit t us) :
    Reads rt limit t (us.flatMap rt.writeUnknown) fun m ↦ us.foldl t.addUnknown m := by
  refine Reads.flatMap (f := fun u m ↦ t.addUnknown m u) fun u hu m rest hlt ↦ ?_
  obtain ⟨tag, hkept, hskip⟩ := hus u hu
  exact Table.mergePartial_unknown hrt ht hkept hskip m hlt

end Writing

/-! ## Tables that read alike -/

section Alike

variable {N : Type} {rt rt' : Runtime U} {t t' : Table M U} {sub sub' : Table N U}
  {c c' : FieldCase M} {m : M} {input : List UInt8}

/-- Two cases of one field that read the same below the limit. What they guess may differ. -/
structure FieldCase.Alike (limit : ℕ) (c c' : FieldCase M) : Prop where
  number : c'.number = c.number
  wireType : c'.wireType = c.wireType
  read : ∀ m {input}, input.length < limit → c'.read m input = c.read m input

theorem FieldCase.Alike.refl (c : FieldCase M) : c.Alike limit c := ⟨rfl, rfl, fun _ _ _ ↦ rfl⟩

structure Table.Alike (limit : ℕ) (t t' : Table M U) : Prop where
  cases : List.Forall₂ (FieldCase.Alike limit) t.cases t'.cases
  addUnknown : t'.addUnknown = t.addUnknown
  depth : t'.depth = t.depth

theorem Table.Alike.refl (t : Table M U) : t.Alike limit t :=
  ⟨List.forall₂_same.mpr fun c _ ↦ .refl c, rfl, rfl⟩

/-- A tag has alike cases in both tables, or none in either. -/
theorem Table.Alike.known? (h : t.Alike limit t') (tag : ℕ) :
    Option.Rel (FieldCase.Alike limit) (t.known? tag) (t'.known? tag) := by
  have hfind : ∀ {cs cs' : List (FieldCase M)}, List.Forall₂ (FieldCase.Alike limit) cs cs' →
      Option.Rel (FieldCase.Alike limit) (cs.find? (·.number = tag / 8))
        (cs'.find? (·.number = tag / 8)) := by
    intro cs cs' hcs
    induction hcs with
    | nil => exact .none
    | cons hc _ ih =>
      rw [List.find?_cons, List.find?_cons, hc.number]
      split
      · exact .some hc
      · exact ih
  have hcase := hfind h.cases
  rw [Table.known?, Table.known?, case?, case?]
  generalize t.cases.find? (·.number = tag / 8) = o, t'.cases.find? (·.number = tag / 8) = o'
    at hcase ⊢
  cases hcase with
  | none => exact .none
  | some hc =>
    rw [Option.filter_some, Option.filter_some, hc.wireType]
    split_ifs
    · exact .some hc
    · exact .none

/-- The same library with other guesses. -/
structure Runtime.GuessesOf (rt rt' : Runtime U) : Prop where
  readTag : rt'.readTag = rt.readTag
  skipField : rt'.skipField = rt.skipField
  readDelimited : rt'.readDelimited = rt.readDelimited

theorem Table.Alike.field (h : t.Alike limit t') (hg : rt.GuessesOf rt') (hrt : rt.Sound limit)
    (m : M) (hlt : input.length < limit) : t'.field rt' m input = t.field rt m input := by
  rw [Table.field, Table.field, hg.readTag, hg.skipField, h.addUnknown, h.depth]
  cases htag : rt.readTag input with
  | none => rfl
  | some r =>
    obtain ⟨tag, rest⟩ := r
    have hrest := (hrt.readTag_shortens hlt htag).trans hlt
    have hknown := h.known? tag
    dsimp only
    generalize t.known? tag = o, t'.known? tag = o' at hknown ⊢
    cases hknown with
    | none => rfl
    | some hc => simp only [hc.read m hrest]

/-- **Alike tables read the same**, whatever is guessed. -/
theorem Table.Alike.mergeFromBytes (h : t.Alike limit t') (hg : rt.GuessesOf rt')
    (hrt : rt.Sound limit) (hrt' : rt'.Sound limit) (ht : t.Coherent limit)
    (ht' : t'.Coherent limit) (m : M) (hlt : input.length < limit) :
    t'.mergeFromBytes rt' m input = t.mergeFromBytes rt m input := by
  have hplain : ∀ (fuel : ℕ) (m : M) {input : List UInt8}, input.length < limit →
      t'.plainMerge rt' fuel m input = t.plainMerge rt fuel m input := by
    intro fuel
    induction fuel with
    | zero => exact fun _ _ _ ↦ rfl
    | succ fuel ih =>
      intro m input hlt
      rw [Table.plainMerge, Table.plainMerge, h.field hg hrt m hlt]
      cases hf : t.field rt m input with
      | inl r => rfl
      | inr r => exact ih r.1 ((field_shortens hrt ht hlt hf).trans hlt)
  rw [Table.mergeFromBytes, Table.mergeFromBytes, mergePartial_eq_plain hrt ht m hlt,
    mergePartial_eq_plain hrt' ht' m hlt, Table.plain, Table.plain, hplain _ m hlt]

/-- An embedded message is read alike by alike tables. -/
theorem FieldCase.Alike.message (h : sub.Alike limit sub') (hg : rt.GuessesOf rt')
    (hrt : rt.Sound limit) (hrt' : rt'.Sound limit) (hsub : sub.Coherent limit)
    (hsub' : sub'.Coherent limit) (start : M → N) (put : M → N → M) (number : ℕ)
    (expect : List (ℕ × ℕ)) (last : Bool) :
    FieldCase.Alike limit (.message rt sub start put number expect last)
      (.message rt' sub' start put number expect last) where
  number := rfl
  wireType := rfl
  read m input hlt := by
    simp only [FieldCase.message, hg.readDelimited]
    cases hdel : rt.readDelimited input with
    | none => rfl
    | some r =>
      have := hrt.readDelimited_shortens hlt hdel
      simp only [Option.bind_eq_bind, Option.bind_some,
        h.mergeFromBytes hg hrt hrt' hsub hsub' (start m) (show r.1.length < limit by omega)]

end Alike

end TaggedFields
