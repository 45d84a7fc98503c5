import Rowwise.Bytes.Cursor
import Rowwise.Proofs.Outcome

/-! Readers that invert encoders. Such a reader succeeds with an item exactly where the encoding of
the item stands, and runs out of input where only a part of the encoding is left. Sequencing keeps
the law, so a format is inverted by its reader because each part of it is. -/
namespace Rowwise

namespace Cursor

def Inside (c : Cursor) : Prop := c.position ≤ c.buffer.length

def advance (c : Cursor) (n : Nat) : Cursor := { c with position := c.position + n }

theorem rest_advance (c : Cursor) (n : Nat) : (c.advance n).rest = c.rest.drop n := by
  simp [rest, advance]

/-- The bytes stand at `c`, and `d` is behind them. -/
structure Crosses (c : Cursor) (bs : List UInt8) (d : Cursor) : Prop where
  stands : c.rest = bs ++ d.rest
  moved : d = c.advance bs.length

/-- The input ends within the bytes. -/
structure Cut (c : Cursor) (bs : List UInt8) : Prop where
  stands : c.rest <+: bs
  short : c.remaining < bs.length

theorem crosses_nil {c d : Cursor} : c.Crosses [] d ↔ c = d :=
  ⟨fun h => h.moved.symm, by rintro rfl; exact ⟨rfl, rfl⟩⟩

theorem crosses_append {c d : Cursor} {xs ys : List UInt8} :
    c.Crosses (xs ++ ys) d ↔ ∃ m, c.Crosses xs m ∧ m.Crosses ys d := by
  constructor
  · intro h
    have behind : (c.advance xs.length).rest = ys ++ d.rest := by
      rw [rest_advance, h.stands, List.append_assoc, List.drop_left]
    refine ⟨c.advance xs.length, ⟨?_, rfl⟩, behind, ?_⟩
    · rw [behind, h.stands, List.append_assoc]
    · rw [h.moved]
      simp [advance, Nat.add_assoc]
  · rintro ⟨m, first, second⟩
    refine ⟨?_, ?_⟩
    · rw [first.stands, second.stands, List.append_assoc]
    · rw [second.moved, first.moved]
      simp [advance, Nat.add_assoc]

theorem crosses_of_rest {c : Cursor} {xs ys : List UInt8} (stands : c.rest = xs ++ ys) :
    ∃ d, c.Crosses xs d ∧ d.rest = ys := by
  have rest : (c.advance xs.length).rest = ys := by
    rw [rest_advance, stands, List.drop_left]
  exact ⟨_, ⟨by rw [rest, stands], rfl⟩, rest⟩

theorem hasMore_eq (c : Cursor) : c.hasMore = !c.rest.isEmpty := by
  rw [Bool.eq_iff_iff, Bool.not_eq_true', List.isEmpty_eq_false_iff, ← List.length_pos_iff,
    length_rest, remaining, hasMore, decide_eq_true_iff]
  omega

theorem Crosses.inside {c d : Cursor} {bs : List UInt8} (h : c.Crosses bs d) (inside : c.Inside) :
    d.Inside := by
  have length := congrArg List.length h.stands
  simp only [length_rest, remaining, List.length_append] at length
  rw [h.moved]
  simp only [Inside, advance] at inside ⊢
  omega

/-- Input that ends within two pieces ends within the first or, behind it, within the second. -/
theorem Cut.append {c : Cursor} {xs ys : List UInt8} (cut : c.Cut (xs ++ ys)) :
    c.Cut xs ∨ ∃ m, c.Crosses xs m ∧ m.Cut ys := by
  by_cases short : c.remaining < xs.length
  · refine .inl ⟨List.prefix_of_prefix_length_le cut.stands (List.prefix_append xs ys) ?_, short⟩
    rw [length_rest]
    omega
  · have whole : xs <+: c.rest := by
      apply List.prefix_of_prefix_length_le (List.prefix_append xs ys) cut.stands
      rw [length_rest]
      omega
    obtain ⟨ts, split⟩ := whole
    have behind : (c.advance xs.length).rest = ts := by
      rw [rest_advance, ← split, List.drop_left]
    refine .inr ⟨c.advance xs.length, ⟨by rw [behind, split], rfl⟩, ?_, ?_⟩
    · have stands := cut.stands
      rw [← split, List.prefix_append_right_inj] at stands
      rwa [behind]
    · have length := cut.short
      rw [← length_rest, ← split] at length
      rw [← length_rest, behind]
      simp only [List.length_append] at length
      omega

end Cursor

variable {ε α β : Type}

/-- Reading succeeds with an item exactly where its encoding stands, and input that ends within the
encoding is reported as `ended`. Items that do not fit the format are never read. -/
structure Inverse (ended : Nat → ε) (item : EStateM ε Cursor α) (encode : α → List UInt8)
    (fits : α → Prop) : Prop where
  ok_iff : ∀ {c d : Cursor} {a : α}, c.Inside →
    (item c = .ok a d ↔ fits a ∧ c.Crosses (encode a) d)
  short : ∀ {c : Cursor} {a : α}, c.Inside → fits a → c.Cut (encode a) →
    ∃ offset d, item c = .error (ended offset) d

namespace Inverse

variable {ended : Nat → ε} {item : EStateM ε Cursor α} {encode : α → List UInt8} {fits : α → Prop}

theorem congr (law : Inverse ended item encode fits) {encode' : α → List UInt8} {fits' : α → Prop}
    (range : ∀ a, fits a ↔ fits' a) (bytes : ∀ a, fits' a → encode a = encode' a) :
    Inverse ended item encode' fits' where
  ok_iff {c d a} inside := by
    rw [law.ok_iff inside, range a]
    exact and_congr_right fun fit => by rw [bytes a fit]
  short {c a} inside fit cut := law.short inside ((range a).mpr fit) (by rwa [bytes a fit])

/-- An item that stands between other bytes is read back, and the cursor comes to stand behind it.
-/
theorem between (law : Inverse ended item encode fits) {a : α} (fit : fits a)
    (front behind : List UInt8) :
    item ⟨front ++ encode a ++ behind, front.length⟩ =
      .ok a ⟨front ++ encode a ++ behind, (front ++ encode a).length⟩ := by
  refine (law.ok_iff ?_).mpr ⟨fit, ?_, ?_⟩
  · simp [Cursor.Inside]
  · simp [Cursor.rest]
  · simp [Cursor.advance]

/-- What leaves the cursor alone stands for no bytes. -/
theorem still (at_rest : ∀ c d a, item c = .ok a d ↔ fits a ∧ c = d) :
    Inverse ended item (fun _ => []) fits where
  ok_iff {c d a} _ := by rw [at_rest, Cursor.crosses_nil]
  short _ _ cut := absurd cut.short (Nat.not_lt_zero _)

theorem pure (b : β) : Inverse ended (Pure.pure b) (fun _ => []) (· = b) :=
  still fun _ _ _ => run_pure_ok.trans (and_congr_left fun _ => eq_comm)

/-- One item after the other, when what is read in all shows a first item that fits. -/
theorem bind {rest : α → EStateM ε Cursor β} {behind whole : β → List UInt8}
    {fits' : α → β → Prop} {range : β → Prop} (law : Inverse ended item encode fits)
    (next : ∀ a, fits a → Inverse ended (rest a) behind (fits' a))
    (first : ∀ b, range b ↔ ∃ a, fits a ∧ fits' a b)
    (split : ∀ a b, fits a → fits' a b → whole b = encode a ++ behind b) :
    Inverse ended (item >>= rest) whole range where
  ok_iff {c d b} inside := by
    rw [run_bind_ok, first b]
    constructor
    · rintro ⟨a, m, ok, ok'⟩
      obtain ⟨fit, crosses⟩ := (law.ok_iff inside).mp ok
      obtain ⟨fit', crosses'⟩ := ((next a fit).ok_iff (crosses.inside inside)).mp ok'
      refine ⟨⟨a, fit, fit'⟩, ?_⟩
      rw [split a b fit fit', Cursor.crosses_append]
      exact ⟨m, crosses, crosses'⟩
    · rintro ⟨⟨a, fit, fit'⟩, crosses⟩
      rw [split a b fit fit', Cursor.crosses_append] at crosses
      obtain ⟨m, crosses, crosses'⟩ := crosses
      exact ⟨a, m, (law.ok_iff inside).mpr ⟨fit, crosses⟩,
        ((next a fit).ok_iff (crosses.inside inside)).mpr ⟨fit', crosses'⟩⟩
  short {c b} inside fits cut := by
    obtain ⟨a, fit, fit'⟩ := (first b).mp fits
    rw [split a b fit fit'] at cut
    rcases cut.append with cut | ⟨m, crosses, cut⟩
    · obtain ⟨offset, d, failed⟩ := law.short inside fit cut
      exact ⟨offset, d, run_bind_of_error failed⟩
    · obtain ⟨offset, d, failed⟩ := (next a fit).short (crosses.inside inside) fit' cut
      have ok := (law.ok_iff inside).mpr ⟨fit, crosses⟩
      exact ⟨offset, d, (run_bind_of_ok ok).trans failed⟩

/-- One field of a record before the others. When the whole record is known in the end, so is the
field. -/
theorem field {rest : α → EStateM ε Cursor β} {behind : β → List UInt8} {fits' : α → β → Prop}
    (law : Inverse ended item encode fits) (part : β → α)
    (same : ∀ a b, fits a → fits' a b → part b = a)
    (next : ∀ a, fits a → Inverse ended (rest a) behind (fits' a)) :
    Inverse ended (item >>= rest) (fun b => encode (part b) ++ behind b)
      (fun b => fits (part b) ∧ fits' (part b) b) := by
  refine law.bind next (fun b => ⟨fun fit => ⟨part b, fit⟩, ?_⟩) ?_
  · rintro ⟨a, fit, fit'⟩
    obtain rfl := same a b fit fit'
    exact ⟨fit, fit'⟩
  · intro a b fit fit'
    rw [same a b fit fit']

/-- An item that is converted after reading. -/
theorem map (law : Inverse ended item encode fits) (f : α → β) (g : β → α)
    (left : ∀ a, fits a → g (f a) = a) :
    Inverse ended (item >>= fun a => Pure.pure (f a)) (fun b => encode (g b))
      (fun b => fits (g b) ∧ b = f (g b)) :=
  (law.field g (by rintro a _ fit rfl; exact left a fit) fun a _ => pure (f a)).congr
    (fun _ => Iff.rfl) (fun _ _ => List.append_nil _)

/-- An item that after reading is one of several kinds. -/
theorem inject (law : Inverse ended item encode fits) (f : α → β) {whole : β → List UInt8}
    {range : β → Prop} (image : ∀ b, range b ↔ ∃ a, fits a ∧ b = f a)
    (same : ∀ a, fits a → whole (f a) = encode a) :
    Inverse ended (item >>= fun a => Pure.pure (f a)) whole range := by
  refine law.bind (fun a _ => pure (f a)) image ?_
  rintro a _ fit rfl
  rw [same a fit, List.append_nil]

end Inverse

namespace Reader

abbrev Inverts (item : Reader α) (encode : α → List UInt8) (fits : α → Prop) : Prop :=
  Inverse DecodeError.unexpectedEnd item encode fits

theorem bytes_inverts (n : Nat) : (bytes n).Inverts id (·.length = n) where
  ok_iff {c d bs} inside := by
    simp only [Cursor.Inside] at inside
    by_cases enough : c.position + n ≤ c.buffer.length
    · have length : (c.rest.take n).length = n := by
        simp [Cursor.remaining]
        omega
      simp only [bytes, enough, if_true, EStateM.Result.ok.injEq, id]
      constructor
      · rintro ⟨rfl, rfl⟩
        have split : c.rest = c.rest.take n ++ (c.advance n).rest := by
          rw [Cursor.rest_advance, List.take_append_drop]
        exact ⟨length, split, by rw [length]; rfl⟩
      · rintro ⟨rfl, crosses⟩
        exact ⟨by rw [crosses.stands, List.take_left], crosses.moved.symm⟩
    · simp only [bytes, enough, if_false, reduceCtorEq, false_iff, not_and, id]
      intro length crosses
      have := congrArg List.length crosses.stands
      simp only [Cursor.length_rest, Cursor.remaining, List.length_append] at this
      omega
  short {c bs} inside length cut := by
    have few := cut.short
    simp only [Cursor.remaining, Cursor.Inside, id] at few inside
    have short : ¬ c.position + n ≤ c.buffer.length := by omega
    exact ⟨c.position, c, by simp [bytes, short]⟩

theorem word8_inverts : word8.Inverts (fun w => [w]) fun _ => True := by
  refine ((bytes_inverts 1).map (fun bs => UInt8.ofNat (Bytes.toNat bs)) (fun w => [w]) ?_).congr
    ?_ (fun _ _ => rfl)
  · intro bs single
    obtain ⟨w, rfl⟩ := List.length_eq_one_iff.mp single
    simp [Bytes.toNat]
  · simp [Bytes.toNat]

theorem word16_inverts : word16.Inverts Bytes.ofWord16 fun _ => True :=
  ((bytes_inverts 2).map Bytes.toWord16 Bytes.ofWord16 Bytes.ofWord16_toWord16).congr
    (by simp) (fun _ _ => rfl)

theorem word32_inverts : word32.Inverts Bytes.ofWord32 fun _ => True :=
  ((bytes_inverts 4).map Bytes.toWord32 Bytes.ofWord32 Bytes.ofWord32_toWord32).congr
    (by simp) (fun _ _ => rfl)

theorem word64_inverts : word64.Inverts Bytes.ofWord64 fun _ => True :=
  ((bytes_inverts 8).map Bytes.toWord64 Bytes.ofWord64 Bytes.ofWord64_toWord64).congr
    (by simp) (fun _ _ => rfl)

theorem int_inverts : (do return (← word32).toInt32).Inverts
    (fun n => Bytes.ofWord32 n.toUInt32) fun _ => True :=
  (word32_inverts.map UInt32.toInt32 Int32.toUInt32 (fun _ _ => rfl)).congr
    (by simp) (fun _ _ => rfl)

theorem long_inverts : (do return (← word64).toInt64).Inverts
    (fun n => Bytes.ofWord64 n.toUInt64) fun _ => True :=
  (word64_inverts.map UInt64.toInt64 Int64.toUInt64 (fun _ _ => rfl)).congr
    (by simp) (fun _ _ => rfl)

/-- A size of 32 bits in front of what it is the size of. -/
theorem Inverts.sized {body : Nat → Reader β} {encode : β → List UInt8} {fits : Nat → β → Prop}
    (size : β → Nat) (same : ∀ n b, fits n b → size b = n)
    (law : ∀ n, (body n).Inverts encode (fits n)) :
    (word32 >>= fun w => body w.toNat).Inverts (fun b => Bytes.ofNat 4 (size b) ++ encode b)
      (fun b => size b < UInt32.size ∧ fits (size b) b) := by
  refine (word32_inverts.field (fun b => UInt32.ofNat (size b)) ?_ fun w _ => law w.toNat).congr
    ?_ ?_
  · intro w b _ fit
    simp [same _ b fit]
  · intro b
    constructor
    · rintro ⟨-, fit⟩
      -- a size that wraps is read as another one, which is not the size of `b`
      have held := same _ b fit
      have small : size b < UInt32.size := by
        rw [held]
        exact UInt32.toNat_lt_size _
      rw [← held] at fit
      exact ⟨small, fit⟩
    · rintro ⟨small, fit⟩
      exact ⟨trivial, by rwa [UInt32.toNat_ofNat_of_lt' small]⟩
  · rintro b ⟨small, -⟩
    rw [Bytes.ofWord32, UInt32.toNat_ofNat_of_lt' small]

/-! A text is read in two steps: its bytes, then what they spell. -/

def spelled (start : Nat) (bs : List UInt8) : Reader String :=
  match String.fromUTF8? ⟨bs.toArray⟩ with
  | some s => return s
  | none => throw (.invalidText start)

def content (n : Nat) : Reader String := do
  let start ← position
  let bs ← bytes n
  spelled start bs

theorem fromUTF8?_eq_some {bs : List UInt8} {s : String} :
    String.fromUTF8? ⟨bs.toArray⟩ = some s ↔ Bytes.utf8 s = bs := by
  unfold String.fromUTF8?
  constructor
  · intro valid
    split at valid
    · cases valid
      rfl
    · cases valid
  · rintro rfl
    have valid : (⟨(Bytes.utf8 s).toArray⟩ : ByteArray).IsValidUTF8 := s.isValidUTF8
    rw [dif_pos valid]
    rfl

theorem spelled_inverts (start : Nat) (bs : List UInt8) :
    (spelled start bs).Inverts (fun _ => []) (Bytes.utf8 · = bs) := by
  refine Inverse.still fun c d s => ?_
  rw [← fromUTF8?_eq_some, spelled]
  cases String.fromUTF8? ⟨bs.toArray⟩ with
  | some t => rw [run_pure_ok, Option.some.injEq]
  | none => exact ⟨nofun, nofun⟩

theorem content_inverts (n : Nat) :
    (content n).Inverts Bytes.utf8 fun s => (Bytes.utf8 s).length = n := by
  have law (start : Nat) :
      (bytes n >>= spelled start).Inverts Bytes.utf8 fun s => (Bytes.utf8 s).length = n :=
    ((bytes_inverts n).field Bytes.utf8 (by grind) fun bs _ => spelled_inverts start bs).congr
      (by simp) (by simp)
  exact ⟨fun {c _ _} => (law c.position).ok_iff, fun {c _} => (law c.position).short⟩

theorem text_inverts : text.Inverts Bytes.ofText fun s => (Bytes.utf8 s).length < UInt32.size :=
  (Inverts.sized (fun s => (Bytes.utf8 s).length) (fun _ _ fit => fit) content_inverts).congr
    (by simp) (fun _ _ => rfl)

variable {item : Reader α} {encode : α → List UInt8} {fits : α → Prop}

theorem Inverts.times (law : item.Inverts encode fits) (n : Nat) :
    (item.times n).Inverts (·.flatMap encode) fun items =>
      items.length = n ∧ ∀ a ∈ items, fits a := by
  induction n with
  | zero =>
    refine (Inverse.pure []).congr ?_ ?_
    · rintro (_ | _) <;> simp
    · rintro items ⟨none, -⟩
      rw [List.length_eq_zero_iff.mp none]
      rfl
  | succ n ih =>
    refine law.bind (fun head _ => ih.map (head :: ·) List.tail (fun _ _ => rfl)) ?_ ?_
    · rintro (_ | ⟨head, tail⟩)
      · simp
      · simpa using and_left_comm
    · rintro head items - ⟨-, split⟩
      rw [split]
      rfl

theorem Inverts.counted (law : item.Inverts encode fits) :
    (Reader.counted item).Inverts (Bytes.ofCounted encode) fun items =>
      items.length < UInt32.size ∧ ∀ a ∈ items, fits a :=
  (Inverts.sized List.length (by grind) law.times).congr (by simp) (fun _ _ => rfl)

end Reader

end Rowwise
