/-! Computations with a state that failures keep. -/
namespace Linkage

/-- A computation that changes a state and may fail; a failure keeps the changes made before it. -/
abbrev Run (σ ε : Type) := ExceptT ε (StateM σ)

end Linkage
