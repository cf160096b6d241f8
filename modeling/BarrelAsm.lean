import BarrelAsm.Arith
import BarrelAsm.Assembler
import BarrelAsm.Assembly.Declaration
import BarrelAsm.Assembly.FirstPass
import BarrelAsm.Assembly.Handler
import BarrelAsm.Assembly.SecondPass
import BarrelAsm.Assembly.State
import BarrelAsm.Assembly.Statement
import BarrelAsm.Check
import BarrelAsm.Command.Options
import BarrelAsm.Command.Run
import BarrelAsm.Command.Workspace
import BarrelAsm.Expr
import BarrelAsm.Fault
import BarrelAsm.Formula.Eval
import BarrelAsm.Formula.Expr
import BarrelAsm.Formula.Format
import BarrelAsm.Formula.Lexeme
import BarrelAsm.Formula.Operator
import BarrelAsm.Formula.Value
import BarrelAsm.Instruction
import BarrelAsm.Instruction.Read
import BarrelAsm.Listing
import BarrelAsm.Main
import BarrelAsm.Numeral
import BarrelAsm.Output.Device
import BarrelAsm.Output.Files
import BarrelAsm.Process.Order
import BarrelAsm.Process.Registry
import BarrelAsm.Process.Schedule
import BarrelAsm.Program
import BarrelAsm.Pseudo
import BarrelAsm.Pseudo.Read
import BarrelAsm.Scope
import BarrelAsm.Symbol
import BarrelAsm.Text.Basic
import BarrelAsm.Text.Blank
import BarrelAsm.Text.Letter
import BarrelAsm.Text.Quoted
import BarrelAsm.Text.Visible
import BarrelAsm.Token.Basic
import BarrelAsm.Token.Classify
import BarrelAsm.Token.Cursor
import BarrelAsm.Token.Split
import BarrelAsm.Word
import BarrelAsm.Proofs.Reader
import BarrelAsm.Proofs.Handler
import BarrelAsm.Proofs.Step
import BarrelAsm.Proofs.Token
import BarrelAsm.Proofs.Layout
import BarrelAsm.Proofs.Order
import BarrelAsm.Proofs.Registry
import BarrelAsm.Proofs.PassAgreement
import BarrelAsm.Proofs.Symbol
import BarrelAsm.Proofs.Location
import BarrelAsm.Proofs.Block
import BarrelAsm.Proofs.Target
import BarrelAsm.Proofs.Capacity
import BarrelAsm.Proofs.Growth
import BarrelAsm.Proofs.RegisterTable
import BarrelAsm.Proofs.Site
import BarrelAsm.Proofs.DataSegment
import BarrelAsm.Proofs.Scratch
import BarrelAsm.Proofs.Listing
import BarrelAsm.Proofs.Schedule
import BarrelAsm.Proofs.Address
import BarrelAsm.Proofs.Names
import BarrelAsm.Proofs.Expansion
import BarrelAsm.Proofs.ScopedSymbols
import BarrelAsm.Proofs.Diagnosis
import BarrelAsm.Proofs.Nesting
import BarrelAsm.Proofs.CodeParts
import BarrelAsm.Proofs.Session
import BarrelAsm.Proofs.Admission
import BarrelAsm.Proofs.Encoding
import BarrelAsm.Proofs.Allocation
import BarrelAsm.Proofs.Reassembly
import BarrelAsm.Proofs.Numeral
import BarrelAsm.Proofs.Output
import BarrelAsm.Proofs.Expression
import BarrelAsm.Proofs.Form
import BarrelAsm.Proofs.Residue
import BarrelAsm.Proofs.Blank
import BarrelAsm.Proofs.Split
import BarrelAsm.Proofs.Join
import BarrelAsm.Proofs.Delimiter
import BarrelAsm.Proofs.Literal
import BarrelAsm.Proofs.NumberLiteral
import BarrelAsm.Proofs.Declaration
import BarrelAsm.Proofs.Latch
import BarrelAsm.Proofs.OutputCalls
import BarrelAsm.Proofs.StableSort
import BarrelAsm.Proofs.SlotOrder
import BarrelAsm.Proofs.CommonMultiple
