import Swig.Lib.CircularList
import Swig.Lib.DoublyLinked
import Swig.DOH.HashMap
import Swig.DOH.StringOps
import Swig.DOH.HashKey
import Swig.DOH.HashIteration
import Swig.DOH.HashResize
import Swig.DOH.InternTree
import Swig.DOH.PrintfFormat
import Swig.DOH.Readline
import Swig.DOH.Seek
import Swig.DOH.RefRuns
import Swig.Scanner.StringEscape
import Swig.Scanner.Conservation
import Swig.Scanner.SkipBalanced
import Swig.Runtime.CastRuns
import Swig.Runtime.TypeCheck
import Swig.Runtime.TypeQueryModule
import Swig.Runtime.PackData
import Swig.Runtime.ClientData
import Swig.Runtime.PyContainer
import Swig.Runtime.ConvertPtr
import Swig.Preprocessor.Nesting
import Swig.Preprocessor.ExprGrammar
import Swig.Preprocessor.ExprLeak
import Swig.Preprocessor.FirstColumn
import Swig.Preprocessor.Verbatim
import Swig.Preprocessor.FindArgs
import Swig.Modules.FastDispatch
import Swig.Modules.AllocatePass
import Swig.Modules.OverloadRank
import Swig.Modules.EnumValues
import Swig.Modules.FreeargCheck
import Swig.Modules.SmartPointer
import Swig.Typesys.Equivalents
import Swig.Typesys.TypedefLookup
import Swig.Typesys.FindScope
import Swig.Errors.WarnRuns
import Swig.Fragments.EmitAll
import Swig.CParse.ParenReference
import Swig.CParse.ExprTokens
import Swig.CParse.DefaultOverloads
import Swig.CParse.YylexEnds
import Swig.Tree.Links
import Swig.Tree.SaveRestore
import Swig.Symbol.OverloadRuns
import Swig.Symbol.StringQualify
import Swig.Symbol.ParamEval
import Swig.Symbol.TemplateDefargs
import Swig.Symbol.InheritLookup
import Swig.Symbol.TypedefChase
import Swig.Misc.StripComments
import Swig.Misc.ScopeName
import Swig.SType.ArrayType
import Swig.SType.Qualifier
import Swig.Preprocessor.Define
import Swig.Preprocessor.EndOfText
import Swig.Preprocessor.ExpandMacro
import Swig.Typemap.Patterns
import Swig.Naming.ObjectInherit
import Swig.Naming.FeatureLevels
import Swig.Modules.Contract
import Swig.CParse.DumpNested
import Swig.Wrapper.Locals
import Swig.Typemap.Embedded
import Swig.Modules.UsingChain
import Swig.CCache.UnifyHash
import Swig.CCache.Stats
import Swig.CCache.Cleanup
import Swig.CCache.Store
