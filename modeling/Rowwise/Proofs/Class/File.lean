import Rowwise.Proofs.Class.Sized

/-! Files of classes. A class is read exactly from its own file; what is longer or shorter than a
file is none, and is refused with the reason given here. -/
namespace Rowwise

def Class.opening (flags checksum : UInt32) : List UInt8 :=
  magic ++ Bytes.ofWord32 currentVersion ++ Bytes.ofWord32 flags ++ Bytes.ofWord32 checksum

namespace FileReader

variable {α β : Type} {item : Reader α} {c d : Cursor}

abbrev Inverts (item : FileReader α) (encode : α → List UInt8) (fits : α → Prop) : Prop :=
  Inverse (fun offset => FormatError.malformed (.unexpectedEnd offset)) item encode fits

theorem field_of_ok {a : α} (ok : item c = .ok a d) : field item c = .ok a d := by
  simp only [field, EStateM.adaptExcept, ok]

theorem field_of_error {e : DecodeError} (error : item c = .error e d) :
    field item c = .error (.malformed e) d := by
  simp only [field, EStateM.adaptExcept, error]

theorem field_ok {a : α} : field item c = .ok a d ↔ item c = .ok a d := by
  refine ⟨fun ok => ?_, field_of_ok⟩
  cases run : item c with
  | ok b m => rw [field_of_ok run] at ok; cases ok; rfl
  | error e m => rw [field_of_error run] at ok; cases ok

theorem field_pure (a : α) : field (pure a) = pure a := rfl

theorem field_bind (f : α → Reader β) :
    field (item >>= f) = field item >>= fun a => field (f a) := by
  funext c
  cases run : item c with
  | ok a m =>
    rw [run_bind_of_ok (field_of_ok run)]
    simp only [field, EStateM.adaptExcept, run_bind_of_ok run]
  | error e m =>
    rw [run_bind_of_error (field_of_error run)]
    simp only [field, EStateM.adaptExcept, run_bind_of_error run]

theorem field_inverts {encode : α → List UInt8} {fits : α → Prop}
    (law : item.Inverts encode fits) : (field item).Inverts encode fits where
  ok_iff inside := field_ok.trans (law.ok_iff inside)
  short inside fit cut := by
    obtain ⟨offset, d, failed⟩ := law.short inside fit cut
    exact ⟨offset, d, field_of_error failed⟩

theorem check_ok {condition : Bool} {e : FormatError} :
    check condition e c = .ok () d ↔ condition = true ∧ c = d := by
  cases condition with
  | true => exact run_pure_ok.trans (and_congr_left fun _ => by simp)
  | false => exact ⟨nofun, nofun⟩

theorem check_of_false {condition : Bool} {e : FormatError} (fails : condition = false) :
    check condition e c = .error e c := by
  rw [check, fails]
  rfl

theorem check_inverts (condition : Bool) (e : FormatError) :
    (check condition e).Inverts (fun _ => []) fun _ => condition = true :=
  Inverse.still fun _ _ _ => check_ok

def header : FileReader (UInt32 × UInt32 × UInt32) := do
  let magic ← field (Reader.bytes 4)
  check (magic == Class.magic) (.wrongMagic magic)
  let version ← field Reader.word32
  check (version == Class.currentVersion) (.unsupportedVersion version)
  let flags ← field Reader.word32
  let checksum ← field Reader.word32
  return (version, flags, checksum)

def body (version flags : UInt32) : FileReader Class := do
  let (constants, name, methods) ← field Reader.payload
  let c ← get
  check (!c.hasMore) (.trailingBytes c.remaining)
  return { version, flags, constants, name, methods }

theorem classFile_eq (data : List UInt8) : classFile data = (do
    let (version, flags, stored) ← header
    let actual := Bytes.Checksum.crc32 (data.drop Class.headerSize)
    check (stored == actual) (.wrongChecksum stored actual)
    body version flags) := by
  simp only [classFile, header, body, Reader.payload, field_bind, field_pure, bind_assoc, pure_bind]

theorem header_inverts : header.Inverts (fun h => Class.opening h.2.1 h.2.2)
    fun h => h.1 = Class.currentVersion := by
  have word := field_inverts Reader.word32_inverts
  have law :=
    (field_inverts (Reader.bytes_inverts 4)).field (fun _ : UInt32 × UInt32 × UInt32 => Class.magic)
      (by grind) fun magic _ =>
    (check_inverts (magic == Class.magic) (.wrongMagic magic)).field (fun _ => ()) (by grind)
      fun _ _ =>
    word.field Prod.fst (by grind) fun version _ =>
    (check_inverts (version == Class.currentVersion) (.unsupportedVersion version)).field
      (fun _ => ()) (by grind) fun _ _ =>
    word.field (fun h => h.2.1) (by grind) fun flags _ =>
    word.field (fun h => h.2.2) (by grind) fun checksum _ =>
    Inverse.pure (version, flags, checksum)
  exact law.congr (by simp [Class.magic]) (fun h current => by simp [Class.opening, current])

theorem classFile_of_opening {data : List UInt8} {flags checksum : UInt32}
    (opens : (Cursor.start data).Crosses (Class.opening flags checksum) d) :
    classFile data (.start data) =
      if checksum = Bytes.Checksum.crc32 d.rest then body Class.currentVersion flags d
      else .error (.wrongChecksum checksum (Bytes.Checksum.crc32 d.rest)) d := by
  have rest : data.drop Class.headerSize = d.rest := by
    rw [opens.moved, Cursor.rest_advance, Cursor.rest_start]
    rfl
  have read : header (.start data) = .ok (Class.currentVersion, flags, checksum) d :=
    (header_inverts.ok_iff (Nat.zero_le _)).mpr ⟨rfl, opens⟩
  rw [classFile_eq, run_bind_of_ok read, rest]
  split
  · rename_i same
    exact run_bind_of_ok (check_ok.mpr ⟨beq_iff_eq.mpr same, rfl⟩)
  · rename_i other
    exact run_bind_of_error (check_of_false (beq_eq_false_iff_ne.mpr other))

theorem opening_of_classFile {data : List UInt8} {c : Class} {e : Cursor}
    (ok : classFile data (.start data) = .ok c e) :
    ∃ flags checksum d, (Cursor.start data).Crosses (Class.opening flags checksum) d := by
  rw [classFile_eq, run_bind_ok] at ok
  obtain ⟨⟨version, flags, checksum⟩, d, read, -⟩ := ok
  obtain ⟨-, opens⟩ := (header_inverts.ok_iff (Nat.zero_le _)).mp read
  exact ⟨flags, checksum, d, opens⟩

theorem body_of_payload {c : Class} (version flags : UInt32) (fits : c.Representable)
    (inside : d.Inside) {e : Cursor} (crosses : d.Crosses c.payload e) :
    body version flags d =
      if e.hasMore then .error (.trailingBytes e.remaining) e
      else .ok { c with version, flags } e := by
  have read : Reader.payload d = .ok (c.constants, c.name, c.methods) e :=
    (Reader.payload_inverts.ok_iff inside).mpr ⟨fits.parts, crosses⟩
  rw [body, run_bind_of_ok (field_of_ok read)]
  change ((check (!e.hasMore) (.trailingBytes e.remaining) >>= fun _ => pure _) e) = _
  cases e.hasMore <;> rfl

theorem body_short {c : Class} (version flags : UInt32) (fits : c.Representable) (inside : d.Inside)
    (cut : d.Cut c.payload) :
    ∃ offset e, body version flags d = .error (.malformed (.unexpectedEnd offset)) e := by
  obtain ⟨offset, e, failed⟩ :=
    Reader.payload_inverts.short (a := (c.constants, c.name, c.methods)) inside fits.parts cut
  exact ⟨offset, e, run_bind_of_error (field_of_error failed)⟩

theorem body_ok {c : Class} {version flags : UInt32} (inside : d.Inside) {e : Cursor}
    (ok : body version flags d = .ok c e) :
    c.version = version ∧ c.flags = flags ∧ c.Representable ∧ d.rest = c.payload := by
  simp only [body, run_bind_ok] at ok
  obtain ⟨⟨constants, name, methods⟩, m, read, last, _, now, _, _, ended, made⟩ := ok
  obtain ⟨rfl, rfl⟩ := run_pure_ok.mp made
  obtain ⟨whole, rfl⟩ := check_ok.mp ended
  cases now
  obtain ⟨⟨pool, short, few, each⟩, crosses⟩ :=
    (Reader.payload_inverts.ok_iff inside).mp (field_ok.mp read)
  refine ⟨rfl, rfl, ⟨⟨pool, short, few, fun m member => (each m member).1⟩,
    fun m member => (each m member).2⟩, ?_⟩
  have none : m.rest = [] := by simpa [Cursor.hasMore_eq] using whole
  rw [crosses.stands, none, List.append_nil]
  rfl

end FileReader

namespace Class

open FileReader

variable {data : List UInt8} {c : Class}

theorem decode_ok : decode data = .ok c ↔ ∃ e, classFile data (.start data) = .ok c e := by
  rw [decode, EStateM.run]
  cases classFile data (.start data) with
  | ok b e => simp
  | error error e => simp

theorem decode_of_error {error : FormatError} {e : Cursor}
    (failed : classFile data (.start data) = .error error e) : decode data = .error error := by
  rw [decode, EStateM.run, failed]

/-- Why a file with this checksum and payload is refused: a payload with another checksum is not
looked at. -/
def refusal (checksum : UInt32) (payload : List UInt8) (error : FormatError) : FormatError :=
  if checksum = Bytes.Checksum.crc32 payload then error
  else .wrongChecksum checksum (Bytes.Checksum.crc32 payload)

theorem decode_refuses {flags checksum : UInt32} {d e : Cursor} {error : FormatError}
    (opens : (Cursor.start data).Crosses (opening flags checksum) d)
    (failed : body currentVersion flags d = .error error e) :
    decode data = .error (refusal checksum d.rest error) := by
  have run := classFile_of_opening opens
  rw [refusal]
  split at run <;> rename_i same
  · rw [if_pos same]
    exact decode_of_error (run.trans failed)
  · rw [if_neg same]
    exact decode_of_error run

theorem encode_eq (current : c.version = currentVersion) :
    c.encode = opening c.flags (Bytes.Checksum.crc32 c.payload) ++ c.payload := by
  simp [encode, header, opening, current]

theorem exists_behind_opening (flags checksum : UInt32) (bs : List UInt8) :
    ∃ d, (Cursor.start (opening flags checksum ++ bs)).Crosses (opening flags checksum) d ∧
      d.Inside ∧ d.rest = bs := by
  obtain ⟨d, opens, rest⟩ :=
    Cursor.crosses_of_rest (Cursor.rest_start (opening flags checksum ++ bs))
  exact ⟨d, opens, opens.inside (Nat.zero_le _), rest⟩

/-- The one law of the file format: a class is read exactly from its own file. -/
theorem decode_eq_ok_iff :
    decode data = .ok c ↔ c.version = currentVersion ∧ c.Representable ∧ c.encode = data := by
  rw [decode_ok]
  constructor
  · rintro ⟨e, ok⟩
    obtain ⟨flags, checksum, d, opens⟩ := opening_of_classFile ok
    rw [classFile_of_opening opens] at ok
    split at ok
    · rename_i same
      obtain ⟨current, rfl, fits, rest⟩ := body_ok (opens.inside (Nat.zero_le _)) ok
      refine ⟨current, fits, ?_⟩
      have stands := opens.stands
      rw [same, rest] at stands
      rw [encode_eq current, ← stands, Cursor.rest_start]
    · cases ok
  · rintro ⟨current, fits, rfl⟩
    rw [encode_eq current]
    obtain ⟨d, opens, inside, rest⟩ :=
      exists_behind_opening c.flags (Bytes.Checksum.crc32 c.payload) c.payload
    obtain ⟨e, crosses, ended⟩ := Cursor.crosses_of_rest (rest.trans (List.append_nil _).symm)
    have read := body_of_payload currentVersion c.flags fits inside crosses
    rw [if_neg (by simp [Cursor.hasMore_eq, ended]), ← current] at read
    refine ⟨e, ?_⟩
    rw [classFile_of_opening opens, if_pos (by rw [rest]), ← current]
    exact read

theorem decode_extended (fits : c.Representable) (flags checksum : UInt32) {s : List UInt8}
    (more : s ≠ []) :
    decode (opening flags checksum ++ (c.payload ++ s)) =
      .error (refusal checksum (c.payload ++ s) (.trailingBytes s.length)) := by
  obtain ⟨d, opens, inside, rest⟩ := exists_behind_opening flags checksum (c.payload ++ s)
  obtain ⟨e, crosses, left⟩ := Cursor.crosses_of_rest rest
  have read := body_of_payload currentVersion flags fits inside crosses
  rw [if_pos (by simp [Cursor.hasMore_eq, left, more]), ← Cursor.length_rest, left] at read
  rw [decode_refuses opens read, rest]

theorem decode_cut (fits : c.Representable) {flags checksum : UInt32}
    (cut : (Cursor.start data).Cut (opening flags checksum ++ c.payload)) :
    ∃ offset, decode data = .error
      (if data.length < headerSize then .malformed (.unexpectedEnd offset)
      else refusal checksum (data.drop headerSize) (.malformed (.unexpectedEnd offset))) := by
  have inside : (Cursor.start data).Inside := Nat.zero_le _
  rcases cut.append with cut | ⟨d, opens, cut⟩
  · have short : data.length < headerSize := cut.short
    obtain ⟨offset, e, failed⟩ :=
      header_inverts.short inside (a := (currentVersion, flags, checksum)) rfl cut
    refine ⟨offset, ?_⟩
    rw [if_pos short]
    exact decode_of_error (by rw [classFile_eq, run_bind_of_error failed])
  · have rest : data.drop headerSize = d.rest := by
      rw [opens.moved, Cursor.rest_advance, Cursor.rest_start]
      rfl
    have long : ¬ data.length < headerSize := by
      have inside := opens.inside inside
      rw [opens.moved] at inside
      exact Nat.not_lt.mpr inside
    obtain ⟨offset, e, failed⟩ := body_short currentVersion flags fits (opens.inside inside) cut
    exact ⟨offset, by rw [if_neg long, rest, decode_refuses opens failed]⟩

theorem drop_opening (flags checksum : UInt32) (bs : List UInt8) :
    (opening flags checksum ++ bs).drop headerSize = bs :=
  List.drop_left' rfl

/-- A longer file is refused: if not for its checksum, then for the bytes that are left over. -/
theorem decode_append (accepted : decode data = .ok c) {s : List UInt8} (more : s ≠ []) :
    decode (data ++ s) = .error (refusal (Bytes.Checksum.crc32 (data.drop headerSize))
      ((data ++ s).drop headerSize) (.trailingBytes s.length)) := by
  obtain ⟨current, fits, rfl⟩ := decode_eq_ok_iff.mp accepted
  rw [encode_eq current, List.append_assoc, drop_opening, drop_opening]
  exact decode_extended fits c.flags _ more

/-- A shorter file is refused: if not for its checksum, then because it ends too early. -/
theorem decode_take (accepted : decode data = .ok c) {n : Nat} (short : n < data.length) :
    ∃ offset, decode (data.take n) = .error
      (if n < headerSize then .malformed (.unexpectedEnd offset)
      else refusal (Bytes.Checksum.crc32 (data.drop headerSize)) ((data.take n).drop headerSize)
        (.malformed (.unexpectedEnd offset))) := by
  obtain ⟨current, fits, rfl⟩ := decode_eq_ok_iff.mp accepted
  have length : (c.encode.take n).length = n := by
    rw [List.length_take]
    omega
  have cut : (Cursor.start (c.encode.take n)).Cut c.encode := by
    refine ⟨List.take_prefix n c.encode, ?_⟩
    rw [← Cursor.length_rest, Cursor.rest_start, length]
    exact short
  rw [encode_eq current] at cut length ⊢
  obtain ⟨offset, refused⟩ := decode_cut fits cut
  rw [length] at refused
  exact ⟨offset, by rw [refused, drop_opening]⟩

end Class

/-- A class of version 1 whose lengths and numbers of locals fit their fields is read back from its
file as it was, bit for bit. -/
theorem decode_encode {c : Class} (current : c.version = Class.currentVersion) (sized : c.Sized)
    (locals : ∀ m ∈ c.methods, m.locals < UInt32.size) : Class.decode c.encode = .ok c :=
  Class.decode_eq_ok_iff.mpr ⟨current, ⟨sized, locals⟩, rfl⟩

/-- A text stands in two slots, and a double is a signalling NaN. -/
def greeter : Class where
  flags := 1
  constants := ⟨["Olá, ", "!", "Olá, "], [-1, 7, 7], [0x7FF0000000000001]⟩
  name := "Greeter"
  methods :=
    [{ name := "greet", params := ["java.lang.String"], returns := "java.lang.String", locals := 1,
       code := [0x09, 0, 0, 0, 0, 0x12, 0x80, 0xA2] },
     { name := "seven", params := [], returns := "long", access := 0x0008, locals := 0,
       code := [0x0A, 1, 0, 0, 0, 0xA2] }]

theorem greeter_sized : greeter.Sized := by decide

theorem greeter_read_back :
    greeter.version = Class.currentVersion ∧ greeter.Sized ∧
      (∀ m ∈ greeter.methods, m.locals < UInt32.size) ∧ Class.decode greeter.encode = .ok greeter :=
  have locals : ∀ m ∈ greeter.methods, m.locals < UInt32.size := by decide
  ⟨rfl, greeter_sized, locals, decode_encode rfl greeter_sized locals⟩

/-- No file is the beginning of another one. What is longer or shorter than a file is refused,
whether or not the checksum of its payload happens to be the stored one. -/
theorem files_prefix_free {a : List UInt8} {c : Class} (accepted : Class.decode a = .ok c) :
    (∀ b d, Class.decode b = .ok d → a <+: b → a = b) ∧
    (∀ s, s ≠ [] → Class.decode (a ++ s) = .error
      (Class.refusal (Bytes.Checksum.crc32 (a.drop Class.headerSize))
        ((a ++ s).drop Class.headerSize) (.trailingBytes s.length))) ∧
    (∀ n, n < a.length → ∃ offset, Class.decode (a.take n) = .error
      (if n < Class.headerSize then .malformed (.unexpectedEnd offset)
      else Class.refusal (Bytes.Checksum.crc32 (a.drop Class.headerSize))
        ((a.take n).drop Class.headerSize) (.malformed (.unexpectedEnd offset)))) := by
  refine ⟨?_, fun s more => Class.decode_append accepted more,
    fun n short => Class.decode_take accepted short⟩
  rintro b d read ⟨s, rfl⟩
  by_cases none : s = []
  · rw [none, List.append_nil]
  · rw [Class.decode_append accepted none] at read
    cases read

def stub : Class where
  name := "Stub"

/-- The four bytes added here leave the checksum of the payload as it was. -/
theorem stub_extended_and_cut :
    Class.decode stub.encode = .ok stub ∧
      Class.decode (stub.encode ++ [109, 49, 127, 43]) = .error (.trailingBytes 4) ∧
      Class.decode (stub.encode.take 36) = .error (.wrongChecksum 3679734045 4029380720) := by
  have accepted : Class.decode stub.encode = .ok stub :=
    Class.decode_eq_ok_iff.mpr ⟨rfl, ⟨by decide, by decide⟩, rfl⟩
  obtain ⟨-, longer, shorter⟩ := files_prefix_free accepted
  obtain ⟨offset, cut⟩ := shorter 36 (by decide +kernel)
  refine ⟨accepted, ?_, ?_⟩
  · rw [longer [109, 49, 127, 43] (by decide), Class.refusal, if_pos (by decide +kernel)]
    rfl
  · have stored : Bytes.Checksum.crc32 (stub.encode.drop Class.headerSize) = 3679734045 := by
      decide +kernel
    have actual : Bytes.Checksum.crc32 ((stub.encode.take 36).drop Class.headerSize) =
        4029380720 := by
      decide +kernel
    rw [cut, if_neg (by decide), Class.refusal, stored, actual, if_neg (by decide)]

end Rowwise
