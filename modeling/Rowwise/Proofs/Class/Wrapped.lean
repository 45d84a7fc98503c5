import Mathlib.Control.Monad.Basic
import Rowwise.Proofs.Class.File
import Rowwise.Proofs.Verify.Accepted

/-! What a file keeps of a class. Numbers of locals are written modulo `2 ^ 32`, so a class with
greater ones shares its file with another class, which is the one that is read back. -/
namespace Rowwise

namespace Method

def wrapped (m : Method) : Method := { m with locals := m.locals % UInt32.size }

theorem encode_wrapped (m : Method) : m.wrapped.encode = m.encode := by
  have low : Bytes.ofNat 4 (m.locals % UInt32.size) = Bytes.ofNat 4 m.locals :=
    Bytes.ofNat_mod 4 m.locals
  simp only [encode, wrapped, low]

theorem wrapped_eq_self {m : Method} (small : m.locals < UInt32.size) : m.wrapped = m := by
  rw [wrapped, Nat.mod_eq_of_lt small]

theorem Sized.wrapped {m : Method} (sized : m.Sized) : m.wrapped.Sized :=
  ⟨sized.name, sized.params, sized.paramNames, sized.returns, sized.code⟩

end Method

namespace Class

variable {c : Class}

def wrapped (c : Class) : Class := { c with methods := c.methods.map Method.wrapped }

theorem encode_wrapped (c : Class) : c.wrapped.encode = c.encode := by
  have same : c.wrapped.payload = c.payload := by
    simp [payload, wrapped, Bytes.ofCounted, List.flatMap_map, Method.encode_wrapped]
  rw [encode, encode, same]
  rfl

theorem wrapped_eq_self (small : ∀ m ∈ c.methods, m.locals < UInt32.size) : c.wrapped = c := by
  have same : c.methods.map Method.wrapped = c.methods.map id :=
    List.map_congr_left fun m member => Method.wrapped_eq_self (small m member)
  rw [wrapped, same, List.map_id]

theorem Sized.wrapped (sized : c.Sized) : c.wrapped.Representable := by
  refine ⟨⟨sized.constants, sized.name, ?_, ?_⟩, ?_⟩
  · simpa [Class.wrapped] using sized.methods
  · intro m member
    obtain ⟨n, original, rfl⟩ := List.mem_map.mp member
    exact (sized.eachMethod n original).wrapped
  · intro m member
    obtain ⟨n, -, rfl⟩ := List.mem_map.mp member
    exact Nat.mod_lt _ (by decide)

theorem decode_wrapped (current : c.version = currentVersion) (sized : c.Sized) :
    decode c.encode = .ok c.wrapped :=
  decode_eq_ok_iff.mpr ⟨current, sized.wrapped, c.encode_wrapped⟩

end Class

/-- The format is canonical: a class that is read from a file has that file, so no two files hold
the same class; and the files that can be read are those that are written for classes of version 1
whose lengths fit their fields. -/
theorem format_canonical :
    (∀ data c, Class.decode data = .ok c → c.encode = data) ∧
    (∀ a b c, Class.decode a = .ok c → Class.decode b = .ok c → a = b) ∧
    (∀ data, (∃ c, Class.decode data = .ok c) ↔
      ∃ c : Class, c.version = Class.currentVersion ∧ c.Sized ∧ c.encode = data) := by
  have exact_file (data c) (read : Class.decode data = .ok c) : c.encode = data :=
    (Class.decode_eq_ok_iff.mp read).2.2
  refine ⟨exact_file, ?_, ?_⟩
  · intro a b c first second
    rw [← exact_file a c first, exact_file b c second]
  · intro data
    constructor
    · rintro ⟨c, read⟩
      obtain ⟨current, fits, written⟩ := Class.decode_eq_ok_iff.mp read
      exact ⟨c, current, fits.toSized, written⟩
    · rintro ⟨c, current, sized, rfl⟩
      exact ⟨c.wrapped, Class.decode_wrapped current sized⟩

theorem greeter_only_file :
    Class.decode greeter.encode = .ok greeter ∧
      ∀ data, Class.decode data = .ok greeter → data = greeter.encode := by
  have accepted : Class.decode greeter.encode = .ok greeter :=
    Class.decode_eq_ok_iff.mpr ⟨rfl, ⟨greeter_sized, by decide⟩, rfl⟩
  obtain ⟨-, only, -⟩ := format_canonical
  exact ⟨accepted, fun data read => only data greeter.encode greeter read accepted⟩

def tailed (code : List UInt8) : Class where
  name := "Tailed"
  methods := [{ name := "f", params := [], returns := "void", locals := 0, code }]

theorem payload_tailed {code : List UInt8} (wraps : code.length % UInt32.size = 0) :
    (tailed code).payload = (tailed []).payload ++ code := by
  have length : Bytes.ofNat 4 code.length = Bytes.ofNat 4 0 := by
    rw [← Bytes.ofNat_mod 4 code.length]
    exact congrArg (Bytes.ofNat 4) wraps
  simp [Class.payload, tailed, Bytes.ofCounted, Method.encode, length]

/-- The code is announced as empty, and is left over. -/
theorem decode_tailed {code : List UInt8} (wraps : code.length % UInt32.size = 0)
    (more : code ≠ []) :
    Class.decode (tailed code).encode = .error (.trailingBytes code.length) := by
  have fits : (tailed []).Representable := ⟨by decide, by decide⟩
  rw [Class.encode_eq rfl, payload_tailed wraps, Class.decode_extended fits _ _ more, Class.refusal,
    if_pos rfl]

/-- The code is longer than its length field can tell. -/
def overlong : Class := tailed (List.replicate 4294967296 0)

def zero (bits : UInt64) : Class where
  constants := { doubles := [bits] }
  name := "Zero"

theorem decode_zero (bits : UInt64) (sized : (zero bits).Sized) :
    Class.decode (zero bits).encode = .ok (zero bits) :=
  decode_encode rfl sized nofun

/-- Not every file that is written for a class of version 1 can be read, and files that differ in
the sign of a zero hold classes whose constants are equal as numbers. -/
theorem lengths_limit_format :
    overlong.version = Class.currentVersion ∧
      Class.decode overlong.encode = .error (.trailingBytes 4294967296) ∧
      (¬ ∀ data, (∃ c, Class.decode data = .ok c) ↔
        ∃ c : Class, c.version = Class.currentVersion ∧ c.encode = data) ∧
      ∃ a b c d, Class.decode a = .ok c ∧ Class.decode b = .ok d ∧ c.agrees d = true ∧ a ≠ b := by
  have length : (List.replicate 4294967296 (0 : UInt8)).length = 4294967296 := List.length_replicate
  have refused : Class.decode overlong.encode = .error (.trailingBytes 4294967296) := by
    have wraps : (List.replicate 4294967296 (0 : UInt8)).length % UInt32.size = 0 := by
      rw [length, Nat.mod_self]
    have more : List.replicate 4294967296 (0 : UInt8) ≠ [] := by
      rw [← List.length_pos_iff, length]
      decide
    rw [overlong, decode_tailed wraps more, length]
  refine ⟨rfl, refused, ?_, ?_⟩
  · intro exact_files
    obtain ⟨c, read⟩ := (exact_files overlong.encode).mpr ⟨overlong, rfl, rfl⟩
    rw [refused] at read
    cases read
  · have plus := decode_zero 0 (by decide)
    have minus := decode_zero 0x8000000000000000 (by decide)
    refine ⟨_, _, _, _, plus, minus, by decide, fun same => ?_⟩
    rw [same, minus] at plus
    cases plus

/-- The verdict on a class against the verdict on what is read back from its file: a verified class
stays verified, and one that is not is found out unless a number of locals does not fit. -/
theorem verdict_after_file {c : Class} (current : c.version = Class.currentVersion)
    (sized : c.Sized) :
    ∃ d, Class.decode c.encode = .ok d ∧
      (c.verify = .ok () ↔ d.verify = .ok () ∧ ∀ m ∈ c.methods, m.locals < UInt32.size) := by
  refine ⟨c.wrapped, Class.decode_wrapped current sized, ?_⟩
  constructor
  · intro verified
    have small : ∀ m ∈ c.methods, m.locals < UInt32.size := by
      intro m member
      obtain ⟨_, checked⟩ := Class.verified_of_mem verified member
      exact Nat.lt_of_le_of_lt checked.locals (by decide)
    rw [Class.wrapped_eq_self small]
    exact ⟨verified, small⟩
  · rintro ⟨verified, small⟩
    rwa [Class.wrapped_eq_self small] at verified

/-- The number of locals of the one method is `2 ^ 32`, which is written as zero. -/
def vast : Class where
  name := "Vast"
  methods :=
    [{ name := "one", params := [], returns := "int", locals := 4294967296,
       code := [0x07, 1, 0, 0, 0, 0xA2] }]

theorem vast_verdict :
    vast.version = Class.currentVersion ∧ vast.Sized ∧ ∃ d, Class.decode vast.encode = .ok d ∧
      (vast.verify = .ok () ↔ d.verify = .ok () ∧ ∀ m ∈ vast.methods, m.locals < UInt32.size) :=
  have sized : vast.Sized := by decide
  ⟨rfl, sized, verdict_after_file rfl sized⟩

/-- Not every class that is refused is refused when it is read from its file. -/
theorem vast_verified_from_file :
    vast.verify = .error (.inMethod "one" (.tooManyLocals 4294967296 65536)) ∧
      ∃ d, Class.decode vast.encode = .ok d ∧ d.verify = .ok () :=
  ⟨by decide +kernel, vast.wrapped, Class.decode_wrapped rfl (by decide), by decide +kernel⟩

end Rowwise
