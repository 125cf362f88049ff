import BinaryLayout.Descriptor.Grammar

/-!
# Definitions

A layout is a sequence of named fields, back to back. A name may occur more than once; every field
is repeated at least once, which `push` sees to.
-/

namespace BinaryLayout

structure Field where
  name : String
  descriptor : Descriptor
  deriving DecidableEq

namespace Field

def byteLength (field : Field) : Nat := field.descriptor.byteLength

/-- The bytes of all fields together. -/
def extent : List Field → Nat
  | [] => 0
  | field :: fields => field.byteLength + extent fields

@[simp] theorem extent_nil : extent [] = 0 := rfl

@[simp] theorem extent_cons (field : Field) (fields : List Field) :
    extent (field :: fields) = field.byteLength + extent fields := rfl

end Field

structure Definition where
  fields : List Field
  count_ne_zero : ∀ field ∈ fields, field.descriptor.count ≠ 0
  deriving DecidableEq

namespace Definition

def empty : Definition := ⟨[], by simp⟩

instance : Inhabited Definition := ⟨empty⟩

/-- Appends a field; a count of zero is taken as one. -/
def push (definition : Definition) (name : String) (d : Descriptor) : Definition where
  fields := definition.fields ++ [⟨name, d.repeated d.count⟩]
  count_ne_zero field h := by
    rcases List.mem_append.1 h with h | h
    · exact definition.count_ne_zero field h
    · rw [List.mem_singleton.1 h]
      simp only [Descriptor.repeated]
      split
      · decide
      · assumption

def append (first second : Definition) : Definition where
  fields := first.fields ++ second.fields
  count_ne_zero field h :=
    (List.mem_append.1 h).elim (first.count_ne_zero field) (second.count_ne_zero field)

def ofList (fields : List (String × Descriptor)) : Definition :=
  fields.foldl (fun definition f => definition.push f.1 f.2) empty

/-- Reads named descriptor texts; the first unknown tag is the error. -/
def parse (texts : List (String × String)) : Except CodecError Definition :=
  texts.foldlM (fun definition t => (Descriptor.parse t.2).map (definition.push t.1)) empty

/-- The descriptor of the first field with a name. -/
def get? (definition : Definition) (name : String) : Option Descriptor :=
  (definition.fields.find? (·.name = name)).map (·.descriptor)

def names (definition : Definition) : List String := definition.fields.map (·.name)

def size (definition : Definition) : Nat := definition.fields.length

def isEmpty (definition : Definition) : Bool := definition.fields.isEmpty

def byteSize (definition : Definition) : Nat := Field.extent definition.fields

/-- The bytes of all fields of a layout in text form, without building it. -/
def byteSizeOfTexts (texts : List (String × String)) : Except CodecError Nat :=
  texts.foldlM (fun total t => (Descriptor.parse t.2).map (total + ·.byteLength)) 0

end Definition

end BinaryLayout
