/-
# `GrpcEpub.Encryption` — META-INF/encryption.xml as records

`opf::parse_encryption`.  A record is an `EncryptedData` or an `EncryptedKey`;
records nest, and every other element speaks about the innermost one that is
open.  The open records are a stack with the innermost first.
-/
import GrpcEpub.Opf

namespace GrpcEpub

/-- One `EncryptedData` or `EncryptedKey`. -/
structure Encrypted where
  algorithm : Str := []
  uri : Str := []
deriving DecidableEq, Repr

namespace Encryption

def idpfObfuscation : Str := "http://www.idpf.org/2008/embedding"

def adobeObfuscation : Str := "http://ns.adobe.com/pdf/enc#RC"

/-- Whether an algorithm is font obfuscation rather than encryption. -/
def isObfuscationAlgorithm (algorithm : Str) : Bool :=
  algorithm == idpfObfuscation || algorithm == adobeObfuscation

end Encryption

def Encrypted.isObfuscation (self : Encrypted) : Bool :=
  Encryption.isObfuscationAlgorithm self.algorithm

namespace Encryption

open Xml

/-- Whether an element opens a record. -/
def isRecord (localName : Str) : Bool :=
  localName == "EncryptedData".toList || localName == "EncryptedKey".toList

/-- What a start tag adds to the record it speaks about: the first value wins. -/
def describeRecord (record : Encrypted) (start : Tag) : Encrypted :=
  if start.localName = "EncryptionMethod" ∧ record.algorithm = [] then
    { record with algorithm := attributeValue start "Algorithm" }
  else if start.localName = "CipherReference" ∧ record.uri = [] then
    { record with uri := attributeValue start "URI" }
  else record

/-- Apply a start tag to the innermost open record. -/
def describe (opened : List (Nat × Encrypted)) (start : Tag) : List (Nat × Encrypted) :=
  match opened with
  | [] => []
  | (level, record) :: outer => (level, describeRecord record start) :: outer

/-- The locals of the loop: the open records with the depth that opened each,
the finished ones in the order they closed, and the current depth. -/
structure Scanner where
  opened : List (Nat × Encrypted) := []
  found : List Encrypted := []
  depth : Nat := 0
deriving DecidableEq, Repr

namespace Scanner

def startTag (self : Scanner) (start : Tag) : Scanner :=
  let depth := self.depth + 1
  if isRecord start.localName then { self with depth, opened := (depth, {}) :: self.opened }
  else { self with depth, opened := describe self.opened start }

def emptyTag (self : Scanner) (start : Tag) : Scanner :=
  if isRecord start.localName then { self with found := self.found ++ [{}] }
  else { self with opened := describe self.opened start }

def endTag (self : Scanner) : Scanner :=
  match self.opened with
  | (level, record) :: outer =>
      if level = self.depth then
        { opened := outer, found := self.found ++ [record], depth := self.depth - 1 }
      else { self with depth := self.depth - 1 }
  | [] => { self with depth := self.depth - 1 }

/-- One turn of the event loop. -/
def step (self : Scanner) : XmlEvent → Except XmlError Scanner
  | .docType dtd =>
      match checkDoctype dtd with
      | .error e => .error e
      | .ok () => .ok self
  | .start tag => .ok (self.startTag tag)
  | .empty tag => .ok (self.emptyTag tag)
  | .endTag _ => .ok self.endTag
  | .text _ | .cData _ | .generalRef _ | .other => .ok self

end Scanner

/-- Everything the descriptor declares encrypted.  A record still open at the
end of input has not been closed, and is not reported. -/
def parseEncryption (stream : XmlStream) : Except XmlError (List Encrypted) := do
  let scanner ← stream.events.foldlM Scanner.step {}
  let scanner ← finish stream.stop scanner
  return scanner.found

end Encryption

end GrpcEpub
