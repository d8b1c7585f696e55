/-! The tokens of a YAML stream and the ways in which a stream can be malformed. -/
namespace Linkage
namespace Yaml

/-- What a token is. -/
inductive TokenKind where
  | streamEnd
  | version (major minor : Nat)
  | tagDirective (handle start : String)
  | documentStart
  | documentEnd
  | blockSequenceStart
  | blockMappingStart
  /-- Closes a block sequence or mapping. -/
  | blockEnd
  | flowSequenceStart
  | flowSequenceEnd
  | flowMappingStart
  | flowMappingEnd
  /-- The dash before an item. -/
  | blockEntry
  /-- The comma between items. -/
  | flowEntry
  | key
  | value
  | alias (name : String)
  | anchor (name : String)
  | tag (handle suffix : String)
  | scalar (text : String) (quoted : Bool)
deriving Repr, DecidableEq

/-- A token and the line on which it starts, counted from one. -/
structure Token where
  kind : TokenKind
  line : Nat
deriving Repr, DecidableEq

/-- What is wrong with a stream. -/
inductive Fault where
  | encoding
  | controlCharacter
  | noToken
  | unfinishedKey
  | entryNotAllowed
  | keyNotAllowed
  | valueNotAllowed
  | directive
  | anchorName
  | tagName
  | blockHeader
  | tabIndent
  | documentMarkInQuotes
  | unclosedQuotes
  | escape
  | depth
  | documentStart
  | incompatibleVersion
  | duplicateDirective
  | undefinedHandle
  | noContent
  | expectedEntry
  | expectedKey
  | expectedSequenceEnd
  | expectedMappingEnd
  | unknownAnchor (name : String)
  | selfReference (name : String)
  | mergeValue
  | binary
  | aliasing
  | conversion (tag value wanted : String)
deriving Repr, DecidableEq

namespace Fault

def text : Fault → String
  | .encoding => "invalid leading UTF-8 octet"
  | .controlCharacter => "control characters are not allowed"
  | .noToken => "found character that cannot start any token"
  | .unfinishedKey => "could not find expected ':'"
  | .entryNotAllowed => "block sequence entries are not allowed in this context"
  | .keyNotAllowed => "mapping keys are not allowed in this context"
  | .valueNotAllowed => "mapping values are not allowed in this context"
  | .directive => "found unknown directive name"
  | .anchorName => "did not find expected alphabetic or numeric character"
  | .tagName => "did not find expected tag URI"
  | .blockHeader => "did not find expected comment or line break"
  | .tabIndent => "found a tab character that violates indentation"
  | .documentMarkInQuotes => "found unexpected document indicator"
  | .unclosedQuotes => "found unexpected end of stream"
  | .escape => "found unknown escape character"
  | .depth => "exceeded max depth of 10000"
  | .documentStart => "did not find expected <document start>"
  | .incompatibleVersion => "found incompatible YAML document"
  | .duplicateDirective => "found duplicate directive"
  | .undefinedHandle => "found undefined tag handle"
  | .noContent => "did not find expected node content"
  | .expectedEntry => "did not find expected '-' indicator"
  | .expectedKey => "did not find expected key"
  | .expectedSequenceEnd => "did not find expected ',' or ']'"
  | .expectedMappingEnd => "did not find expected ',' or '\x7d'"
  | .unknownAnchor name => "unknown anchor '" ++ name ++ "' referenced"
  | .selfReference name => "anchor '" ++ name ++ "' value contains itself"
  | .mergeValue => "map merge requires map or sequence of maps as the value"
  | .binary => "!!binary value contains invalid base64 data"
  | .aliasing => "document contains excessive aliasing"
  | .conversion tag value wanted => "cannot decode " ++ tag ++ " `" ++ value ++ "` as a " ++ wanted

end Fault

end Yaml

end Linkage
