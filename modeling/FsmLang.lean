import FsmLang.CSemantics.Enumeration
import FsmLang.Machine
import FsmLang.EventEnum
import FsmLang.EventNumbers
import FsmLang.SubMachineFinder
import FsmLang.EventCrossReference
import FsmLang.CrossReferenceFiles
import FsmLang.CrossReferenceJson
import FsmLang.CrossReferenceXml
import FsmLang.CSemantics.BitPacking
import FsmLang.Combine
import FsmLang.ActionArray
import FsmLang.CSemantics.Loops
import FsmLang.EventLoops
import FsmLang.SubMachineInhibitor
import FsmLang.SingleSwitchLoop
import FsmLang.HandledEvents
import FsmLang.CSemantics.Switch
import FsmLang.GeneratedCode
import FsmLang.TableSingleSwitch
import FsmLang.SwitchEventTable
import FsmLang.SubLoopProgress
import FsmLang.ConsolidatedCases
import FsmLang.ReturnDeclarations
import FsmLang.StateTransitionRoutines
import FsmLang.SubMachineDepth
import FsmLang.DebugNames
import FsmLang.CompactActionArray
import FsmLang.CSemantics.Lists
import FsmLang.CSemantics.Runs
import FsmLang.PyTransitions
import FsmLang.EnumeratorReferences
import FsmLang.SharedEvents
import FsmLang.FunctionBodies
import FsmLang.CaseLabels
import FsmLang.ParentReferences
import FsmLang.ActionMatrices
import FsmLang.MachineRuns
import FsmLang.StatesReturned
import FsmLang.CompactStates
import FsmLang.TransitionHooks
import FsmLang.CSemantics.Rings
import FsmLang.LinkedLists
import FsmLang.ListOperations
import FsmLang.ListRuns
import FsmLang.ListContents
import FsmLang.CSemantics.StableSorts
import FsmLang.OrderedLists
import FsmLang.ReturnLists
import FsmLang.StateCharts
import FsmLang.TransitionLists
import FsmLang.Densities
import FsmLang.EventSequences
import FsmLang.ImplementingMachines
import FsmLang.CSemantics.Buffers
import FsmLang.Lexing.Patterns
import FsmLang.Lexing.Brackets
import FsmLang.Lexer
import FsmLang.SourceSections
import FsmLang.CharData
import FsmLang.NativeBlocks
import FsmLang.UnderbarCaps
import FsmLang.CSemantics.NestedLoops
import FsmLang.MachineTrees
import FsmLang.TreeNumbers
import FsmLang.TreeRuns
import FsmLang.TreeCells
import FsmLang.Lexing.Sequences
import FsmLang.SectionTokens
import FsmLang.LexerMatches
import FsmLang.SourceTexts
import FsmLang.TableStates
import FsmLang.Parsing.Separation
import FsmLang.Grammar
import FsmLang.CSemantics.KeyedStores
import FsmLang.Identifiers
import FsmLang.AcceptedTexts
import FsmLang.ParsedMachines
import FsmLang.RenamedMatrices
import FsmLang.ParsedTrees
import FsmLang.WrittenMachines
import FsmLang.ExecutedTexts
