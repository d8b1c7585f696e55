import Linkage.Jvm.ClassFile

/-! The events that a class is told in: its declaration, its members, and the body of each method. -/
namespace Linkage

/-- An offset in the code of a method. -/
abbrev Label := Int

/-- An event of a method body, in program order between `start` and `finish`. -/
inductive CodeEvent where
  | start
  | insn (op : Int)
  | intInsn (op operand : Int)
  | varInsn (op index : Int)
  | typeInsn (op : Int) (type : String)
  | fieldInsn (op : Int) (owner name descriptor : String)
  | methodInsn (op : Int) (owner name descriptor : String) (isInterface : Bool)
  | invokeDynamic (name descriptor : String) (bootstrap : Option Handle) (arguments : List Literal)
  | jump (op : Int) (target : Label)
  | label (label : Label)
  | ldc (value : Literal)
  | increment (index amount : Int)
  | tableSwitch (low high : Int) (otherwise : Label) (labels : List Label)
  | lookupSwitch (otherwise : Label) (keys : List Int) (labels : List Label)
  | multiArray (descriptor : String) (dimensions : Int)
  | tryCatch (start stop handler : Label) (type : String)
  | lineNumber (line : Int) (start : Label)
  | maxs (stack locals : Int)
  | finish
deriving Repr

/-- An event of a class after its declaration that opens no method. -/
inductive MemberEvent where
  | source (name : String)
  | uninterpreted (attr : Attribute)
  | field (field : Field)
  | finish
deriving Repr

inductive Event where
  /-- The declaration of a class, which may be missing. -/
  | declare (header : Option Header)
  | member (event : MemberEvent)
  /-- The declaration of a method, whose body follows. -/
  | method (decl : MethodDecl)
  | code (event : CodeEvent)
deriving Repr

namespace CodeEvent

def kind : CodeEvent → String
  | .start => "VisitCode"
  | .insn _ => "VisitInsn"
  | .intInsn _ _ => "VisitIntInsn"
  | .varInsn _ _ => "VisitVarInsn"
  | .typeInsn _ _ => "VisitTypeInsn"
  | .fieldInsn _ _ _ _ => "VisitFieldInsn"
  | .methodInsn _ _ _ _ _ => "VisitMethodInsn"
  | .invokeDynamic _ _ _ _ => "VisitInvokeDynamicInsn"
  | .jump _ _ => "VisitJumpInsn"
  | .label _ => "VisitLabel"
  | .ldc _ => "VisitLdcInsn"
  | .increment _ _ => "VisitIincInsn"
  | .tableSwitch _ _ _ _ => "VisitTableSwitchInsn"
  | .lookupSwitch _ _ _ => "VisitLookupSwitchInsn"
  | .multiArray _ _ => "VisitMultiANewArrayInsn"
  | .tryCatch _ _ _ _ => "VisitTryCatchBlock"
  | .lineNumber _ _ => "VisitLineNumber"
  | .maxs _ _ => "VisitMaxs"
  | .finish => "VisitMethodEnd"

end CodeEvent

namespace MemberEvent

def kind : MemberEvent → String
  | .source _ => "VisitSource"
  | .uninterpreted _ => "VisitAttribute"
  | .field _ => "VisitField"
  | .finish => "VisitEnd"

end MemberEvent

namespace Event

/-- The name of an event. -/
def kind : Event → String
  | .declare _ => "Visit"
  | .member event => event.kind
  | .method _ => "VisitMethod"
  | .code event => event.kind

end Event

end Linkage
