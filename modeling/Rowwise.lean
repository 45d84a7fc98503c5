import Rowwise.Bytes.Digest
import Rowwise.Number
import Rowwise.Code.Assembler
import Rowwise.Class.Codec
import Rowwise.Class.Interner
import Rowwise.Verify.Class
import Rowwise.Machine.State
import Rowwise.Toml.Document
import Rowwise.Files.Tree
import Rowwise.Space.Native
import Rowwise.Session.Step
import Rowwise.Proofs.Types.Grammar
import Rowwise.Proofs.Code.Landed
import Rowwise.Proofs.Code.Items
import Rowwise.Proofs.Verify.Visits
import Rowwise.Proofs.Verify.Defects
import Rowwise.Proofs.Machine.Discipline
import Rowwise.Proofs.Machine.Calls
import Rowwise.Proofs.Machine.Forward
import Rowwise.Proofs.Machine.Contained
import Rowwise.Proofs.Machine.Integers
import Rowwise.Proofs.Machine.Lengths
import Rowwise.Proofs.Class.Wrapped
import Rowwise.Proofs.Class.Damage
import Rowwise.Proofs.Class.Interned
import Rowwise.Proofs.Class.Pooled
import Rowwise.Proofs.Space.Overloads
import Rowwise.Proofs.Space.Results
import Rowwise.Proofs.Space.Coerced
import Rowwise.Proofs.Space.Shape
import Rowwise.Proofs.Session.Stores
import Rowwise.Proofs.Session.Confined
import Rowwise.Proofs.Session.Admitted
import Rowwise.Proofs.Session.Access
