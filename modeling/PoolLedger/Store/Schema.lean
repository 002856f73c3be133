import PoolLedger.Error
import PoolLedger.Ranged
import PoolLedger.Real.Basic

/-! Tables of the store: their columns, the column that no two rows share, and
what happens to a row whose key is there already. A row is checked against its
table before anything is written. -/

namespace PoolLedger

inductive ColumnKind
  | integer
  | real
  | text
deriving DecidableEq

def ColumnKind.name : ColumnKind → String
  | .integer => "INTEGER"
  | .real => "REAL"
  | .text => "TEXT"

structure Column where
  name : String
  kind : ColumnKind
deriving DecidableEq

inductive ConflictPolicy
  | ignore
  | replace
deriving DecidableEq

inductive Cell
  | integer (n : Word)
  | real (x : Float)
  | text (s : String)
  | null
deriving DecidableEq

abbrev Row := List Cell

namespace Cell

/-- An integer that may be too large for the store. Such a one is kept as text,
which no integer column takes. -/
def ofInt (n : Int) : Cell :=
  match (Ranged.ofInt? n : Option Word) with
  | some w => .integer w
  | none => .text (toString n)

def ofAmount (a : Amount) : Cell := ofInt a.val
def ofBalance (b : Balance) : Cell := ofInt b.val
def ofHeight (h : Height) : Cell := ofInt h.val
def ofIndex (i : Index) : Cell := ofInt i.val

def fits : Cell → ColumnKind → Bool
  | .integer _, .integer => true
  | .text _, .text => true
  | .real x, .real => Real.isFinite x
  | _, _ => false

def kindName : Cell → String
  | .integer _ => "INTEGER"
  | .real _ => "REAL"
  | .text _ => "TEXT"
  | .null => "NULL"

def stored : Cell → Cell
  | .real x => .real (if x == 0.0 then 0.0 else x)
  | c => c

end Cell

def chunks {α : Type} (n : Nat) : List α → List (List α)
  | [] => []
  | x :: xs => (x :: xs.take (n - 1)) :: chunks n (xs.drop (n - 1))
termination_by xs => xs.length
decreasing_by
  simp only [List.length_drop, List.length_cons]
  omega

structure TableSchema where
  name : String
  columns : List Column
  unique : String
  conflict : ConflictPolicy
deriving DecidableEq

namespace TableSchema

def commaList (parts : List String) : String := String.intercalate ", " parts

def createText (s : TableSchema) : String :=
  let columns := s.columns.map fun c => c.name ++ " " ++ c.kind.name ++ " NOT NULL"
  "CREATE TABLE IF NOT EXISTS " ++ s.name ++ " (" ++ commaList columns ++ ", UNIQUE (" ++ s.unique ++
    ")) STRICT"

def insertText (s : TableSchema) : String :=
  let verb :=
    match s.conflict with
    | .ignore => "INSERT OR IGNORE"
    | .replace => "INSERT OR REPLACE"
  verb ++ " INTO " ++ s.name ++ " (" ++ commaList (s.columns.map Column.name) ++ ") "

def mismatch? (s : TableSchema) (row : Row) : Option Mismatch :=
  (s.columns.zip row).findSome? fun (column, cell) =>
    if cell.fits column.kind then none
    else some ⟨s.name, column.name, column.kind.name, cell.kindName⟩

def validate (s : TableSchema) (row : Row) : Except IndexerError Unit :=
  if row.length ≠ s.columns.length then
    .error (.internal (s.name ++ ": " ++ toString row.length ++ " values for " ++
      toString s.columns.length ++ " columns"))
  else
    match s.mismatch? row with
    | some m => .error (.schemaMismatch m)
    | none => .ok ()

def keyOf (s : TableSchema) (row : Row) : Option Cell :=
  row[(s.columns.map Column.name).idxOf s.unique]?

def insertRow (s : TableSchema) (rows : List Row) (row : Row) : List Row × Bool :=
  let row := row.map Cell.stored
  let taken := rows.any fun r => s.keyOf r = s.keyOf row
  match s.conflict with
  | .ignore => if taken then (rows, false) else (rows ++ [row], true)
  | .replace => ((rows.filter fun r => s.keyOf r ≠ s.keyOf row) ++ [row], true)

def insertStatement (s : TableSchema) (rows : List Row) (new : List Row) : List Row × Nat :=
  new.foldl (fun (acc : List Row × Nat) row =>
    let (rows, written) := s.insertRow acc.1 row
    (rows, if written then acc.2 + 1 else acc.2)) (rows, 0)

def statementSize : Nat := 500

def insertRows (s : TableSchema) (rows : List Row) (new : List Row) : List Row × Nat :=
  (chunks statementSize new).foldl (fun (acc : List Row × Nat) chunk =>
    let (rows, written) := s.insertStatement acc.1 chunk
    (rows, acc.2 + written)) (rows, 0)

end TableSchema

end PoolLedger
