import LoxMachine.Yaml.Scanner

/-!
# Nodes

A document is a tree of scalars, sequences and mappings.  An alias stands for the
node of an anchor before it, which may also be one that the alias is part of.
-/

namespace LoxMachine.Yaml

/-- A node, with its tag if it has one and the number of its line. An alias has the name of an
anchor, the place of the node it stands for, and its own. -/
inductive Node where
  | scalar (tag : Option Bytes) (plain : Bool) (text : Bytes) (line : Nat)
  | sequence (tag : Option Bytes) (items : List Node) (line : Nat)
  | mapping (tag : Option Bytes) (entries : List (Node × Node)) (line : Nat)
  | alias (name : Bytes) (target place : Nat) (line : Nat)

/-- A document: its root, and the nodes with an anchor by their places. -/
structure Document where
  root : Node
  anchored : List (Nat × Node)

/-- The node at a place. -/
def Document.node? (document : Document) (place : Nat) : Option Node :=
  (document.anchored.find? fun entry => entry.1 = place).map Prod.snd

namespace Node

/-- A scalar without text. -/
def empty (mark : Mark) : Node :=
  .scalar none true [] (mark.line + 1)

/-! ## Reading tokens -/

/-- The tokens to come, what the handles of tags stand for, and the anchors so far, with the
nodes of those that are complete. -/
structure Progress where
  scanner : Scanner
  handles : List (Bytes × Bytes) := []
  anchors : List (Bytes × Nat) := []
  anchored : List (Nat × Node) := []

abbrev Parse := StateT Progress (Except Error)

/-- The next token. -/
def peek : Parse Token := do
  let progress ← get
  let (token, scanner) ← progress.scanner.peek
  set { progress with scanner := scanner }
  return token

/-- Passes the next token. -/
def advance : Parse Unit :=
  modify fun progress => { progress with scanner := progress.scanner.advance }

/-! ## Properties -/

/-- The properties in front of a node: where it begins, its anchor, and its tag as it was
written, with its place. -/
structure Properties where
  start : Mark
  anchor : Option Bytes := none
  tag : Option (Bytes × Bytes × Mark) := none

/-- Reads an anchor and a tag, each at most once, in any order. -/
def parseProperties : Parse Properties := do
  let token ← peek
  match token.kind with
  | .anchor name =>
      advance
      let next ← peek
      match next.kind with
      | .tag handle suffix =>
          advance
          return ⟨token.start, some name, some (handle, suffix, next.start)⟩
      | _ => return ⟨token.start, some name, none⟩
  | .tag handle suffix =>
      advance
      let next ← peek
      match next.kind with
      | .anchor name =>
          advance
          return ⟨token.start, some name, some (handle, suffix, token.start)⟩
      | _ => return ⟨token.start, none, some (handle, suffix, token.start)⟩
  | _ => return ⟨token.start, none, none⟩

/-- The start of the tags of a language of types, and how it is abbreviated. -/
def longTagStart : Bytes := utf8 "tag:yaml.org,2002:"

/-- A tag in its short form. -/
def shortTag (tag : Bytes) : Bytes :=
  match Bytes.stripStart? longTagStart tag with
  | some name => utf8 "!!" ++ name
  | none => tag

/-- What the tag of a node stands for. A single exclamation mark is no tag. -/
def resolveTag (p : Properties) : Parse (Option Bytes) := do
  match p.tag with
  | none => return none
  | some (handle, suffix, mark) =>
      if handle.isEmpty then
        return if suffix = utf8 "!" then none else some (shortTag suffix)
      match (← get).handles.find? fun entry => entry.1 = handle with
      | some entry => return some (shortTag (entry.2 ++ suffix))
      | none => throw (.inStructure .undefinedHandle p.start mark)

/-- Makes an anchor known before its node is read. -/
def openAnchor (p : Properties) : Parse Unit :=
  match p.anchor with
  | some name =>
      modify fun progress =>
        { progress with anchors := (name, p.start.index) :: progress.anchors }
  | none => pure ()

/-- Keeps the node of an anchor. -/
def closeAnchor (p : Properties) (node : Node) : Parse Node := do
  if p.anchor.isSome then
    modify fun progress =>
      { progress with anchored := (p.start.index, node) :: progress.anchored }
  return node

/-- An alias, whose anchor has to be known. -/
def aliasAt (name : Bytes) (mark : Mark) : Parse Node := do
  match (← get).anchors.find? fun entry => entry.1 = name with
  | some entry => return .alias name entry.2 mark.index (mark.line + 1)
  | none => throw ⟨.unknownAnchor name, none⟩

/-! ## Reading nodes -/

/-- Tokens that end an empty node in a block mapping. -/
def endsBlockNode (kind : TokenKind) : Bool :=
  kind = .key || kind = .value || kind = .blockEnd

/-- Passes the comma before an item that is not the first, and gives the token after it. -/
def parseSeparator (first : Bool) (closing : TokenKind) (fault : Fault) (context : Mark) :
    Parse Token := do
  let token ← peek
  if first || token.kind = closing then return token
  else if token.kind = .flowEntry then
    advance
    peek
  else throw (.inStructure fault context token.start)

mutual

/-- Reads a node. Block collections are only read where `block` says so, and dashes without
indentation of their own only where `indentless` does. -/
def parseNode : (fuel : Nat) → (block indentless : Bool) → Parse Node
  | 0, _, _ => throw ⟨.contentExpected, none⟩
  | fuel + 1, block, indentless => do
      let token ← peek
      match token.kind with
      | .alias name =>
          advance
          aliasAt name token.start
      | _ =>
          let p ← parseProperties
          let token ← peek
          let tag ← resolveTag p
          openAnchor p
          closeAnchor p (← parseContent fuel block indentless p tag token)

/-- Reads what a node holds, after its properties, from the token `token`. -/
def parseContent : (fuel : Nat) → (block indentless : Bool) → Properties →
    (tag : Option Bytes) → Token → Parse Node
  | 0, _, _, _, _, _ => throw ⟨.contentExpected, none⟩
  | fuel + 1, block, indentless, p, tag, token => do
      let line := p.start.line + 1
      match token.kind, block, indentless with
      | .scalar plain text, _, _ =>
          advance
          return .scalar tag plain text line
      | .flowSequenceStart, _, _ =>
          advance
          return .sequence tag (← parseFlowItems fuel true token.start) line
      | .flowMappingStart, _, _ =>
          advance
          return .mapping tag (← parseFlowEntries fuel true token.start) line
      | .blockSequenceStart, true, _ =>
          advance
          return .sequence tag (← parseBlockItems fuel token.start) line
      | .blockMappingStart, true, _ =>
          advance
          return .mapping tag (← parseBlockEntries fuel token.start) line
      | .blockEntry, _, true => return .sequence tag (← parseDashes fuel) line
      | _, _, _ =>
          if p.anchor.isSome || p.tag.isSome then return .scalar tag true [] line
          else throw (.inStructure .contentExpected p.start token.start)

/-- Reads the items of an indented sequence that begins at `context`. -/
def parseBlockItems : (fuel : Nat) → (context : Mark) → Parse (List Node)
  | 0, _ => return []
  | fuel + 1, context => do
      let token ← peek
      match token.kind with
      | .blockEntry =>
          advance
          let next ← peek
          let item ←
            if next.kind = .blockEntry || next.kind = .blockEnd then pure (empty token.stop)
            else parseNode fuel true false
          return item :: (← parseBlockItems fuel context)
      | .blockEnd =>
          advance
          return []
      | _ => throw (.inStructure .entryExpected context token.start)

/-- Reads the items of a sequence that is no deeper than the key it belongs to. -/
def parseDashes : (fuel : Nat) → Parse (List Node)
  | 0 => return []
  | fuel + 1 => do
      let token ← peek
      match token.kind with
      | .blockEntry =>
          advance
          let next ← peek
          let item ←
            if next.kind = .blockEntry || endsBlockNode next.kind then pure (empty token.stop)
            else parseNode fuel true false
          return item :: (← parseDashes fuel)
      | _ => return []

/-- Reads the entries of an indented mapping that begins at `context`. -/
def parseBlockEntries : (fuel : Nat) → (context : Mark) → Parse (List (Node × Node))
  | 0, _ => return []
  | fuel + 1, context => do
      let token ← peek
      match token.kind with
      | .key =>
          advance
          let next ← peek
          let key ←
            if endsBlockNode next.kind then pure (empty token.stop) else parseNode fuel true true
          let value ← parseBlockValue fuel
          return (key, value) :: (← parseBlockEntries fuel context)
      | .blockEnd =>
          advance
          return []
      | _ => throw (.inStructure .keyExpected context token.start)

/-- Reads the value of an entry in an indented mapping. -/
def parseBlockValue : (fuel : Nat) → Parse Node
  | 0 => return empty {}
  | fuel + 1 => do
      let token ← peek
      match token.kind with
      | .value =>
          advance
          let next ← peek
          if endsBlockNode next.kind then return empty token.stop else parseNode fuel true true
      | _ => return empty token.start

/-- Reads the items between brackets, of which the first has no comma before it. An item with a
colon is a mapping of one entry. -/
def parseFlowItems : (fuel : Nat) → (first : Bool) → (context : Mark) → Parse (List Node)
  | 0, _, _ => return []
  | fuel + 1, first, context => do
      let token ← parseSeparator first .flowSequenceEnd .sequenceEndExpected context
      match token.kind with
      | .flowSequenceEnd =>
          advance
          return []
      | .key =>
          advance
          let entry ← parseFlowPair fuel
          let item := Node.mapping none [entry] (token.start.line + 1)
          return item :: (← parseFlowItems fuel false context)
      | _ =>
          let item ← parseNode fuel false false
          return item :: (← parseFlowItems fuel false context)

/-- Reads the entry of a mapping without braces. Where its key is missing, what stands in the
place of the key is lost. -/
def parseFlowPair : (fuel : Nat) → Parse (Node × Node)
  | 0 => return (empty {}, empty {})
  | fuel + 1 => do
      let token ← peek
      let key ←
        if token.kind = .value || token.kind = .flowEntry || token.kind = .flowSequenceEnd then do
          advance
          pure (empty token.stop)
        else parseNode fuel false false
      return (key, ← parseFlowValue fuel .flowSequenceEnd)

/-- Reads the entries between braces. -/
def parseFlowEntries : (fuel : Nat) → (first : Bool) → (context : Mark) →
    Parse (List (Node × Node))
  | 0, _, _ => return []
  | fuel + 1, first, context => do
      let token ← parseSeparator first .flowMappingEnd .mappingEndExpected context
      match token.kind with
      | .flowMappingEnd =>
          advance
          return []
      | .key =>
          advance
          let next ← peek
          let key ←
            if next.kind = .value || next.kind = .flowEntry || next.kind = .flowMappingEnd then
              pure (empty next.start)
            else parseNode fuel false false
          let value ← parseFlowValue fuel .flowMappingEnd
          return (key, value) :: (← parseFlowEntries fuel false context)
      | _ =>
          let key ← parseNode fuel false false
          let next ← peek
          return (key, empty next.start) :: (← parseFlowEntries fuel false context)

/-- Reads the value of an entry, up to a comma or the closing bracket. -/
def parseFlowValue : (fuel : Nat) → (closing : TokenKind) → Parse Node
  | 0, _ => return empty {}
  | fuel + 1, closing => do
      let token ← peek
      match token.kind with
      | .value =>
          advance
          let next ← peek
          if next.kind = .flowEntry || next.kind = closing then return empty token.start
          else parseNode fuel false false
      | _ => return empty token.start

end

/-! ## Documents -/

/-- What handles stand for where nothing else is said. -/
def defaultHandles : List (Bytes × Bytes) :=
  [(utf8 "!", utf8 "!"), (utf8 "!!", longTagStart)]

/-- Reads directives, and says whether one gave the version. -/
def parseDirectives : (fuel : Nat) → (version : Bool) → (handles : List (Bytes × Bytes)) →
    Parse (List (Bytes × Bytes))
  | 0, _, handles => return handles
  | fuel + 1, version, handles => do
      let token ← peek
      match token.kind with
      | .version major minor =>
          if version then throw (.inStructure .duplicateVersion {} token.start)
          if major ≠ 1 || minor ≠ 1 then throw (.inStructure .incompatibleVersion {} token.start)
          advance
          parseDirectives fuel true handles
      | .handle name expansion =>
          if handles.any fun entry => entry.1 = name then
            throw (.inStructure .duplicateHandle {} token.start)
          advance
          parseDirectives fuel version (handles ++ [(name, expansion)])
      | _ => return handles

/-- Whether a token of this kind cannot be part of a document that began with a marker. -/
def endsDocument (kind : TokenKind) : Bool :=
  match kind with
  | .version _ _ => true
  | .handle _ _ => true
  | .documentStart => true
  | .documentEnd => true
  | .streamEnd => true
  | _ => false

/-- Whether a token of this kind begins a document with a marker. -/
def announcesDocument (kind : TokenKind) : Bool :=
  endsDocument kind && kind ≠ .documentEnd && kind ≠ .streamEnd

/-- Reads the root of a document that begins with directives or a marker. -/
def parseAnnounced (fuel : Nat) : Parse Node := do
  let handles ← parseDirectives fuel false []
  modify fun progress => { progress with handles := handles ++ defaultHandles }
  let token ← peek
  if token.kind ≠ .documentStart then
    throw (.inStructure .documentStartExpected {} token.start)
  advance
  let token ← peek
  if endsDocument token.kind then return empty token.start else parseNode fuel true false

/-- Reads the root of the first document; there is none if the text has no content. -/
def parseRoot (fuel : Nat) : Parse (Option Node) := do
  let token ← peek
  if token.kind = .streamEnd then return none
  let root ←
    if announcesDocument token.kind then parseAnnounced fuel else parseNode fuel true false
  let _ ← peek
  return some root

end Node

/-- Reads the first document of a text, if it has one. -/
def Document.parse (text : Bytes) : Except Error (Option Document) := do
  let start : Node.Progress :=
    { scanner := Scanner.ofBytes text, handles := Node.defaultHandles }
  let (root, progress) ← (Node.parseRoot (16 * (text.length + 4))).run start
  return root.map fun node => ⟨node, progress.anchored⟩

end LoxMachine.Yaml
