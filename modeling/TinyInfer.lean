import TinyInfer.MiniPrefix.PrefixRoundTrip
import TinyInfer.MiniPrefix.KvPayload
import TinyInfer.MiniPrefix.KvReservations
import TinyInfer.MiniPrefix.EngineBudget
import TinyInfer.MiniPrefix.EngineProgress
import TinyInfer.MiniPrefix.EngineForeign
import TinyInfer.MiniPrefix.EngineDecoding
import TinyInfer.MiniPrefix.EngineKv
import TinyInfer.MiniPrefix.CudaRunner
import TinyInfer.Runtime.DeviceContext
import TinyInfer.Runtime.DeviceArena
import TinyInfer.Onnx.ImporterAccepts
import TinyInfer.Lib.Slots
import TinyInfer.Runtime.MemoryPlan
import TinyInfer.Core.TensorIteratorExact
import TinyInfer.Backend.Cpu.GemmFused
import TinyInfer.Graph.GraphConstruction
import TinyInfer.MiniPrefix.RunnerIndices
import TinyInfer.Backend.Cpu.Reductions
import TinyInfer.Backend.CapabilityOracle
import TinyInfer.Backend.Placement
import TinyInfer.Backend.Cuda.KernelIndices
import TinyInfer.Optimizer.Fixpoint
import TinyInfer.Core.Reshape
import TinyInfer.Core.ArenaAllocator
import TinyInfer.Onnx.ProtobufExact
import TinyInfer.Onnx.ProtobufAttributes
import TinyInfer.MiniPrefix.ModelFormat
import TinyInfer.Lib.ByteReader
import TinyInfer.Onnx.ModelMessages
import TinyInfer.MiniPrefix.TrieInvariant
import TinyInfer.Optimizer.PipelineMeaning
