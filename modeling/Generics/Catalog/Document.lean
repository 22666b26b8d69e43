/-
# Definitions in YAML

A document lists definitions under `declarations`, each with `name`, `params` and `extends`,
where a parameter has `name` and `bound`:

    declarations:
      - name: NumBox
        params:
          - name: N
            bound: Number
        extends: ["Box<N>"]

What is left out, or null, is empty. Scalars of any kind are texts. Anything else, such as
a field that is not listed here, is a misfit with its line; all misfits are reported
together.
-/

import Generics.Catalog.Declare
import Generics.Yaml.Decoding

namespace Generics.Catalog.Document

open Generics.Yaml
open Generics.Yaml.Decoding (field list record text)

/-- Parameters. -/
def param : Decoding.RecordType ParamDefinition where
  name := "universe.ParamDef"
  fields :=
    [ field "name" text fun name p => { p with name },
      field "bound" text fun bound p => { p with bound } ]
  start := {}

/-- Definitions. -/
def definition : Decoding.RecordType Definition where
  name := "universe.Def"
  fields :=
    [ field "name" text fun name d => { d with name },
      field "params" (list "[]universe.ParamDef" (record param)) fun params d =>
        { d with params },
      field "extends" (list "[]string" text) fun parents d => { d with parents } ]
  start := {}

/-- Whole documents. -/
def root : Decoding.RecordType (List Definition) where
  name := "universe.File"
  fields :=
    [ field "declarations" (list "[]universe.Def" (record definition)) fun defs _ => defs ]
  start := []

/-- Why no definitions could be read. -/
inductive Problem
  /-- The text is no document, or one that makes no sense. -/
  | fault (f : Yaml.Fault)
  /-- The document does not have the form of definitions. -/
  | misfits (ms : List Misfit)
deriving DecidableEq, Repr

/-- What went wrong while definitions were read. -/
def Problem.toFailure [Alphabet] : Problem → Failure
  | .fault f => .within "decoding universe" (.plain f.message)
  | .misfits ms =>
    .within "decoding universe"
      (.plain ("yaml: unmarshal errors:\n  " ++ "\n  ".intercalate (ms.map Misfit.message)))

/-- Reads the definitions of a document. -/
def read (text : String) : Except Problem (List Definition) :=
  match Yaml.read text with
  | .error f => .error (.fault f)
  | .ok none => .ok []
  | .ok (some document) =>
    match Decoding.wholeDocument (record root) document with
    | .error f => .error (.fault f)
    | .ok (defs?, []) => .ok (defs?.getD [])
    | .ok (_, ms) => .error (.misfits ms)

end Generics.Catalog.Document
