import LoxLang.Cursor
import LoxLang.Main
import LoxLang.Proofs.CommandLine.Status
import LoxLang.Proofs.Cursor
import LoxLang.Proofs.Evaluation.Activations
import LoxLang.Proofs.Frames.Forest
import LoxLang.Proofs.Lexical.Scoping
import LoxLang.Proofs.Parser.Language
import LoxLang.Proofs.Parser.Recovery
import LoxLang.Proofs.Reach.Reachability
import LoxLang.Proofs.Scope.Rules
import LoxLang.Proofs.Script.Printing
import LoxLang.Proofs.Session.Assignments
import LoxLang.Proofs.Session.BoundMethods
import LoxLang.Proofs.Session.Chains
import LoxLang.Proofs.Session.Dialogue
import LoxLang.Proofs.Session.Entries
import LoxLang.Proofs.Session.Faults
import LoxLang.Proofs.Session.Initializers
import LoxLang.Proofs.Session.Loops
import LoxLang.Proofs.Session.Reinitialised
import LoxLang.Proofs.Session.Renaming
import LoxLang.Proofs.Session.Returns
import LoxLang.Proofs.Token.Written
import LoxLang.Proofs.Trail.Chains
import LoxLang.Proofs.Trail.Evaluation
import LoxLang.Proofs.Trail.Operations
import LoxLang.Proofs.Trail.Records
import LoxLang.Proofs.Trail.Registers
import LoxLang.Scope.Override
import LoxLang.Script.Check
