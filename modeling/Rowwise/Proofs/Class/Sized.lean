import Rowwise.Class.Codec
import Rowwise.Proofs.Bytes.Inverse

/-! Classes that the file format can hold, and the readers of their parts as inverses of the
encoders. Every text and list is written behind its length, in a field of 32 bits. -/
namespace Rowwise

structure Pool.Sized (p : Pool) : Prop where
  strings : p.strings.length < UInt32.size
  texts : ∀ s ∈ p.strings, (Bytes.utf8 s).length < UInt32.size
  integers : p.integers.length < UInt32.size
  doubles : p.doubles.length < UInt32.size

instance (p : Pool) : Decidable p.Sized :=
  decidable_of_iff
    (p.strings.length < UInt32.size ∧ (∀ s ∈ p.strings, (Bytes.utf8 s).length < UInt32.size) ∧
      p.integers.length < UInt32.size ∧ p.doubles.length < UInt32.size)
    ⟨fun ⟨strings, texts, integers, doubles⟩ => ⟨strings, texts, integers, doubles⟩,
      fun ⟨strings, texts, integers, doubles⟩ => ⟨strings, texts, integers, doubles⟩⟩

/-- The number of locals is no length, and is left out. -/
structure Method.Sized (m : Method) : Prop where
  name : (Bytes.utf8 m.name).length < UInt32.size
  params : m.params.length < UInt32.size
  paramNames : ∀ s ∈ m.params, (Bytes.utf8 s).length < UInt32.size
  returns : (Bytes.utf8 m.returns).length < UInt32.size
  code : m.code.length < UInt32.size

instance (m : Method) : Decidable m.Sized :=
  decidable_of_iff
    ((Bytes.utf8 m.name).length < UInt32.size ∧ m.params.length < UInt32.size ∧
      (∀ s ∈ m.params, (Bytes.utf8 s).length < UInt32.size) ∧
      (Bytes.utf8 m.returns).length < UInt32.size ∧
      m.code.length < UInt32.size)
    ⟨fun ⟨name, params, paramNames, returns, code⟩ => ⟨name, params, paramNames, returns, code⟩,
      fun ⟨name, params, paramNames, returns, code⟩ => ⟨name, params, paramNames, returns, code⟩⟩

structure Class.Sized (c : Class) : Prop where
  constants : c.constants.Sized
  name : (Bytes.utf8 c.name).length < UInt32.size
  methods : c.methods.length < UInt32.size
  eachMethod : ∀ m ∈ c.methods, m.Sized

instance (c : Class) : Decidable c.Sized :=
  decidable_of_iff
    (c.constants.Sized ∧ (Bytes.utf8 c.name).length < UInt32.size ∧ c.methods.length < UInt32.size ∧
      ∀ m ∈ c.methods, m.Sized)
    ⟨fun ⟨constants, name, methods, eachMethod⟩ => ⟨constants, name, methods, eachMethod⟩,
      fun ⟨constants, name, methods, eachMethod⟩ => ⟨constants, name, methods, eachMethod⟩⟩

/-- A class that has a file of its own: besides the lengths, the numbers of locals fit too. -/
structure Class.Representable (c : Class) : Prop extends c.Sized where
  locals : ∀ m ∈ c.methods, m.locals < UInt32.size

theorem Class.Representable.parts {c : Class} (fits : c.Representable) :
    c.constants.Sized ∧ (Bytes.utf8 c.name).length < UInt32.size ∧ c.methods.length < UInt32.size ∧
      ∀ m ∈ c.methods, m.Sized ∧ m.locals < UInt32.size :=
  ⟨fits.constants, fits.name, fits.methods, fun m member =>
    ⟨fits.eachMethod m member, fits.locals m member⟩⟩

namespace Reader

theorem pool_inverts : pool.Inverts Pool.encode Pool.Sized := by
  have law :=
    text_inverts.counted.field Pool.strings (by grind) fun strings _ =>
    long_inverts.counted.field Pool.integers (by grind) fun integers _ =>
    word64_inverts.counted.field Pool.doubles (by grind) fun doubles _ =>
    Inverse.pure (⟨strings, integers, doubles⟩ : Pool)
  refine law.congr (fun p => ⟨?_, ?_⟩) ?_
  · rintro ⟨⟨strings, texts⟩, ⟨integers, -⟩, ⟨doubles, -⟩, -⟩
    exact ⟨strings, texts, integers, doubles⟩
  · rintro ⟨strings, texts, integers, doubles⟩
    exact ⟨⟨strings, texts⟩, ⟨integers, fun _ _ => trivial⟩, ⟨doubles, fun _ _ => trivial⟩, rfl⟩
  · intro p _
    simp [Pool.encode]

theorem method_inverts :
    method.Inverts Method.encode fun m => m.Sized ∧ m.locals < UInt32.size := by
  have law :=
    text_inverts.field (fun m : Method => m.name) (by grind) fun name _ =>
    word16_inverts.field Method.access (by grind) fun access _ =>
    text_inverts.counted.field (fun m : Method => m.params) (by grind) fun params _ =>
    text_inverts.field (fun m : Method => m.returns) (by grind) fun returns _ =>
    Inverts.sized Method.locals (by grind) fun locals =>
    Inverts.sized (fun m : Method => m.code.length) (by grind) fun length =>
    (bytes_inverts length).field Method.code (by grind) fun code _ =>
    Inverse.pure (⟨⟨name, params, returns⟩, access, locals, code⟩ : Method)
  refine law.congr (fun m => ⟨?_, ?_⟩) ?_
  · rintro ⟨name, -, ⟨params, paramNames⟩, returns, locals, code, -⟩
    exact ⟨⟨name, params, paramNames, returns, code⟩, locals⟩
  · rintro ⟨⟨name, params, paramNames, returns, code⟩, locals⟩
    exact ⟨name, trivial, ⟨params, paramNames⟩, returns, locals, code, rfl, rfl⟩
  · intro m _
    simp [Method.encode]

def payload : Reader (Pool × String × List Method) := do
  let constants ← pool
  let name ← text
  let methods ← counted method
  return (constants, name, methods)

theorem payload_inverts : payload.Inverts
    (fun p => p.1.encode ++ Bytes.ofText p.2.1 ++ Bytes.ofCounted Method.encode p.2.2)
    fun p => p.1.Sized ∧ (Bytes.utf8 p.2.1).length < UInt32.size ∧ p.2.2.length < UInt32.size ∧
      ∀ m ∈ p.2.2, m.Sized ∧ m.locals < UInt32.size := by
  have law :=
    pool_inverts.field (fun p : Pool × String × List Method => p.1) (by grind) fun constants _ =>
    text_inverts.field (fun p => p.2.1) (by grind) fun name _ =>
    method_inverts.counted.field (fun p => p.2.2) (by grind) fun methods _ =>
    Inverse.pure (constants, name, methods)
  exact law.congr (fun p => by simp) (fun p _ => by simp)

end Reader

end Rowwise
