import WordPlaces.Machine.Basic
import WordPlaces.Program
import WordPlaces.Ty.Table
import WordPlaces.Proofs.Emit.Emission
import WordPlaces.Proofs.Emit.EmitsOnly
import WordPlaces.Proofs.Machine.Step
import WordPlaces.Proofs.Except
import WordPlaces.Proofs.Machine.Frame
import WordPlaces.Proofs.Machine.ReadOnly
import WordPlaces.Proofs.Ty.Placement
import WordPlaces.Proofs.Ty.Tightness
import WordPlaces.Proofs.Ty.Growth
import WordPlaces.Proofs.Ty.Leaves
import WordPlaces.Proofs.Ty.Numbering
import WordPlaces.Proofs.Ty.Interning
import WordPlaces.Proofs.Codec
import WordPlaces.Proofs.Emit.Fragments
import WordPlaces.Proofs.Place.StorageValue
import WordPlaces.Proofs.Place.StoredVariables
import WordPlaces.Proofs.Place.StructCode
import WordPlaces.Proofs.Place.StructCopy
import WordPlaces.Proofs.Place.StructMembers
import WordPlaces.Proofs.Place.StructAssignment
import WordPlaces.Proofs.Emit.Takes
import WordPlaces.Proofs.Emit.Rotation
import WordPlaces.Proofs.Emit.ValueTakes
import WordPlaces.Proofs.Emit.Outcome
import WordPlaces.Proofs.Place.StoreTakes
import WordPlaces.Proofs.Place.LocalVariable
import WordPlaces.Proofs.Place.Assignment
import WordPlaces.Proofs.Place.TupleAssignment
import WordPlaces.Proofs.Place.FieldAccess
import WordPlaces.Proofs.Machine.Progress
import WordPlaces.Proofs.Place.ReadTakes
import WordPlaces.Proofs.Place.ClearTakes
import WordPlaces.Proofs.Place.StackContract
import WordPlaces.Proofs.Ty.StructWords
import WordPlaces.Proofs.Place.StructWordCopy
import WordPlaces.Proofs.Place.MemoryStructAssignment
import WordPlaces.Proofs.FieldLaws
import WordPlaces.Proofs.Place.RegisterFile
import WordPlaces.Proofs.Machine.Calls
import WordPlaces.Proofs.Place.StructClearing
import WordPlaces.Proofs.Place.MemoryValue
import WordPlaces.Proofs.Place.AssignedValue
import WordPlaces.Proofs.Place.MemoryVariables
import WordPlaces.Proofs.Place.ImmutablePlaceholders
import WordPlaces.Proofs.Place.StoredFunction
import WordPlaces.Proofs.Place.StructOutcome
import WordPlaces.Proofs.Place.MemorySequence
import WordPlaces.Proofs.Assembly.Execution
import WordPlaces.Proofs.Assembly.Lowering
import WordPlaces.Proofs.Assembly.ReturnLabels
import WordPlaces.Proofs.Assembly.Simulation
import WordPlaces.Proofs.Ty.Recursion
import WordPlaces.Proofs.Ty.Relocation
import WordPlaces.Proofs.Emit.RoutineNames
import WordPlaces.Proofs.Emit.Reach
import WordPlaces.Proofs.Place.Reach
import WordPlaces.Proofs.Place.KeptOperands
import WordPlaces.Proofs.Assembly.PlaceLowering
import WordPlaces.Proofs.Place.NamedTypes
import WordPlaces.Proofs.Program
import WordPlaces.Proofs.Ty.ArraySlots
import WordPlaces.Proofs.Assembly.ConversionLowering
import WordPlaces.Proofs.Emit.BlockMoves
import WordPlaces.Proofs.Emit.ExternalFunction
import WordPlaces.Proofs.Assembly.PlaceholderLabels
import WordPlaces.Proofs.Ty.EnumWidth
