import Mbench.Library.CText
import Mbench.Library.Loop
import Mbench.Library.Ragged
import Mathlib.Data.Rat.Defs

/-! `core_lat/result_parser.cpp`, over rational numbers for the finite values of `double`. What `atof` makes
of a word is a parameter, and so is `round`, the double that an operation makes of its exact result; with
the identity the arithmetic is exact. The messages and the printing of the three matrices are left out, and
so are the members `row` and `col`, which nothing reads. -/

namespace Mbench.CoreLat
open Library

abbrev Mat := Ragged Rat

def getlines (text : List Char) : List (List Char) := (fileLines text).map fun line => line.takeWhile fun c => c ≠ '\n'

def wordsOf (line : List Char) : List (List Char) := (line.splitOnP isSpace).filter fun word => word ≠ []

def readWord (atof : List Char → Rat) (word : List Char) : Rat := if word = ['N', 'A'] then 0 else atof word

/-- `Matrix::readMatrix`: what it returns, and `_mat` afterwards. A file that cannot be opened is `none`. -/
def readMatrix (atof : List Char → Rat) (mat : Mat) : Option (List Char) → Int × Mat
  | none => (-1, mat)
  | some text => (0, (getlines text).map fun line => (wordsOf line).map (readWord atof))

/-- The first loop of `main`: one `Matrix` reads all files, and `_mat` is pushed after each. -/
def readFiles (atof : List Char → Rat) : Mat → List (Option (List Char)) → List Mat
  | _, [] => []
  | mat, file :: files =>
      let mat := (readMatrix atof mat file).2
      mat :: readFiles atof mat files

@[ext]
structure Accumulators where
  minjz : Mat
  midjz : Mat
  maxjz : Mat

section
variable (round : Rat → Rat) (matjz : List Mat)

def initEntry (first : Mat) (m n : Nat) (acc : Accumulators) : Option Accumulators := do
  let row ← first[m]?
  let minjz ← (acc.minjz.resizeRows first.length).resizeRow m row.length 0
  let midjz ← (acc.midjz.resizeRows first.length).resizeRow m row.length 0
  let maxjz ← (acc.maxjz.resizeRows first.length).resizeRow m row.length 0
  let value ← row[n]?
  let minjz ← minjz.setEntry m n value
  let midjz ← midjz.setEntry m n (round (value / matjz.length))
  let maxjz ← maxjz.setEntry m n value
  some { minjz, midjz, maxjz }

def initialise (acc : Accumulators) : Option Accumulators := do
  let first ← matjz[0]?
  forLoop (fun m acc => forLoop (initEntry round matjz first m) (first.width m) acc) first.length acc

/-- `if (value < _minjz[j][k]) _minjz[j][k] = value`. -/
def lowerTo (value : Rat) (mat : Mat) (j k : Nat) : Option Mat := do
  let low ← mat.entry j k
  if value < low then mat.setEntry j k value else some mat

/-- `if (value > _maxjz[j][k]) _maxjz[j][k] = value`. -/
def raiseTo (value : Rat) (mat : Mat) (j k : Nat) : Option Mat := do
  let high ← mat.entry j k
  if high < value then mat.setEntry j k value else some mat

def addTo (value : Rat) (mat : Mat) (j k : Nat) : Option Mat := do
  let mid ← mat.entry j k
  mat.setEntry j k (round (mid + value))

def processEntry (mat : Mat) (j k : Nat) (acc : Accumulators) : Option Accumulators := do
  let value ← mat.entry j k
  let minjz ← lowerTo value acc.minjz j k
  let maxjz ← raiseTo value acc.maxjz j k
  let midjz ← addTo round (round (value / matjz.length)) acc.midjz j k
  some { minjz, midjz, maxjz }

def processMatrix (mat : Mat) (acc : Accumulators) : Option Accumulators :=
  forLoop (fun j acc => forLoop (processEntry round matjz mat j) (mat.width j) acc) mat.length acc

def statistics : Option Accumulators := do
  let acc ← initialise round matjz { minjz := [], midjz := [], maxjz := [] }
  matjz.tail.foldlM (fun acc mat => processMatrix round matjz mat acc) acc

end

def resultParser (round : Rat → Rat) (atof : List Char → Rat) (files : List (Option (List Char))) : Option Accumulators :=
  statistics round (readFiles atof [] files)

example : wordsOf "1.5  NA\t2 ".toList = ["1.5".toList, "NA".toList, "2".toList] := by decide

end Mbench.CoreLat
