import MipsAsm.Command.Basic
import MipsAsm.Command.FileTree
import MipsAsm.Main
import MipsAsm.Proofs.Assembly.Branch
import MipsAsm.Proofs.Assembly.Labels
import MipsAsm.Proofs.Assembly.Relocations
import MipsAsm.Proofs.Assembly.Shift
import MipsAsm.Proofs.Assembly.Words
import MipsAsm.Proofs.SymbolTable.Session
import MipsAsm.Server.Basic
import MipsAsm.Web.Page
import MipsAsm.Web.Socket
import MipsAsm.Proofs.Assembly.Stop
import MipsAsm.Proofs.Assembly.Append
import MipsAsm.Proofs.Server.Documents
import MipsAsm.Proofs.Server.Responses
import MipsAsm.Proofs.Layout.Line
import MipsAsm.Proofs.Assembly.Alike
import MipsAsm.Proofs.Layout.Meaning
import MipsAsm.Proofs.Encoding.Grammar
import MipsAsm.Proofs.Assembly.Relisting
import MipsAsm.Proofs.Assembly.Causes
import MipsAsm.Proofs.Encoding.Reach
import MipsAsm.Proofs.Literal
import MipsAsm.Proofs.Machine.Basic
import MipsAsm.Proofs.Machine.Words
import MipsAsm.Proofs.Machine.Pseudo
import MipsAsm.Proofs.Assembly.Room
import MipsAsm.Proofs.Machine.LoadConstant
import MipsAsm.Proofs.Assembly.Pointing
import MipsAsm.Proofs.Sink
import MipsAsm.Proofs.Assembly.Failures
import MipsAsm.Proofs.Assembly.Capacity
import MipsAsm.Proofs.Layout.Contents
import MipsAsm.Proofs.Layout.Again
import MipsAsm.Proofs.Hover.Places
import MipsAsm.Proofs.Hover.Walk
import MipsAsm.Proofs.SymbolTable.Dump
import MipsAsm.Proofs.Word.Algebra
import MipsAsm.Proofs.Assembly.Statement
import MipsAsm.Proofs.Text.Runs
import MipsAsm.Proofs.Hover.Kinds
import MipsAsm.Proofs.Server.Messages
