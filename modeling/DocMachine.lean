import DocMachine.Paxos.Adoption
import DocMachine.Paxos.Waking
import DocMachine.Paxos.Service
import DocMachine.Paxos.Conservation
import DocMachine.Paxos.Choice
import DocMachine.Paxos.Reconfiguration
import DocMachine.Arm.Emulator.Pipeline
import DocMachine.Arm.Labels
import DocMachine.Arm.LiteralPool
import DocMachine.Arm.Operands
import DocMachine.Arm.Addressing
import DocMachine.Arm.Bounds
import DocMachine.Arm.Flags
import DocMachine.Arm.Immediate
import DocMachine.Arm.PinModes
import DocMachine.Arm.Correct
import DocMachine.Stablecoin.Audit
import DocMachine.Alloc.Simulation
import DocMachine.Alloc.ColourGraph
import DocMachine.Haskell.Parser
import DocMachine.Haskell.Maclaurin
import DocMachine.Haskell.ShowExp
import DocMachine.Haskell.Crypto
import DocMachine.Haskell.Expansion
import DocMachine.Haskell.MacroProcessor
import DocMachine.Haskell.Cipher
import DocMachine.Haskell.ConstantFolding
import DocMachine.Haskell.TicTacToeLines
import DocMachine.Haskell.Practice
import DocMachine.Flooding.Sums
import DocMachine.Flooding.Summary
import DocMachine.Pintos.SleepList
import DocMachine.Pintos.Lists
import DocMachine.Wisl.Iterative
import DocMachine.Wisl.DoublyLinked
import DocMachine.Fruits.Plan
import DocMachine.Fruits.Moves
import DocMachine.DecisionTree.Learning
import DocMachine.DecisionTree.Evaluation
import DocMachine.DecisionTree.Folds
import DocMachine.DecisionTree.Prune
import DocMachine.Books.Query
import DocMachine.SplayTree.Dictionary
